import UtilityCss.Brackets
import UtilityCss.Proofs.Source

/-!
# What the scanner of brackets sees

The scanner takes one step after the other, each over one or two characters (`Step`), until the
source ends or a closing bracket is met at the outermost level.  What is said about whole scans is
an induction along the steps (`State.induction`) with a lemma about one step.

Where a scan stops there is a closing bracket (`exists_of_reach`); ordinary text it passes over
one character at a time (`reach_plain`, `reach_open`, `reach_close`); and a bracket that closes
when it stands alone also closes inside of other brackets, whatever follows (`reach_box`,
`closing_of_sealed`).

## Simulating a scan at another depth

The last of them compares two scans of the same text: one that starts at the
bracket itself, and one that has come from further left and carries the depth, the
`url` argument and the characters it met there.  The second one does what the
first does, with all depths raised, up to the bracket that ends the first one; this
is `reach_simulates`.  The one thing that may differ is whether comments count,
because inside a `url` argument they do not.  So the first scan is made either
outside of all such arguments or, if `hidden`, inside of one that it does not
close.
-/

namespace UtilityCss
namespace Brackets

/-! ## Brackets and quotes -/

theorem isOpening_cases {op : Char} (h : isOpening op = true) :
    op = '(' ∨ op = '[' ∨ op = '\x7b' := by
  simpa [isOpening, or_assoc] using h

theorem isClosing_cases {close : Char} (h : isClosing close = true) :
    close = ')' ∨ close = ']' ∨ close = '\x7d' := by
  simpa [isClosing, or_assoc] using h

theorem utf8Size_of_isOpening {op : Char} (h : isOpening op = true) : op.utf8Size = 1 := by
  rcases isOpening_cases h with rfl | rfl | rfl <;> decide

theorem utf8Size_of_isClosing {close : Char} (h : isClosing close = true) :
    close.utf8Size = 1 := by
  rcases isClosing_cases h with rfl | rfl | rfl <;> decide

theorem isClosing_of_isOpening {op : Char} (h : isOpening op = true) : isClosing op = false := by
  rcases isOpening_cases h with rfl | rfl | rfl <;> decide

theorem isQuote_of_isOpening {op : Char} (h : isOpening op = true) : isQuote op = false := by
  rcases isOpening_cases h with rfl | rfl | rfl <;> decide

theorem isQuote_of_isClosing {c : Char} (h : isClosing c = true) : isQuote c = false := by
  rcases isClosing_cases h with rfl | rfl | rfl <;> decide

/-! ## The choice at a character -/

/-- The character `c` in front of `t` stands for itself: it begins neither an escape nor, outside
of `url` arguments, a comment. -/
structure Single (url : Option Nat) (c : Char) (t : Text) : Prop where
  escape : c = '\x5c' → t = []
  comment : c = '/' → url = none → ∀ x u, t = x :: u → x ≠ '*' ∧ x ≠ '/'

namespace Single

variable {url url' : Option Nat} {c : Char} {t t' : Text}

/-- Only a backslash and a slash can begin something. -/
theorem of_ne (hescape : c ≠ '\x5c') (hslash : c ≠ '/') : Single url c t :=
  ⟨fun h => absurd h hescape, fun h => absurd h hslash⟩

/-- A bracket or a quote stands for itself. -/
theorem of_class {p : Char → Bool} (hc : p c = true) (hescape : p '\x5c' = false)
    (hslash : p '/' = false) : Single url c t :=
  of_ne (Text.ne_of_class hc hescape) (Text.ne_of_class hc hslash)

/-- Where none of the scanner's rules for escapes and comments applies. -/
theorem of_not (h1 : ∀ x u, c = '\x5c' → t = x :: u → False)
    (h2 : ∀ u, url = none → c = '/' → t = '*' :: u → False)
    (h3 : ∀ u, url = none → c = '/' → t = '/' :: u → False) : Single url c t where
  escape hc := by
    cases t with
    | nil => rfl
    | cons x u => exact (h1 x u hc rfl).elim
  comment := by
    rintro hc hurl x u rfl
    exact ⟨fun hx => h2 u hurl hc (by rw [hx]), fun hx => h3 u hurl hc (by rw [hx])⟩

/-- A character that stands for itself does so in front of another text, unless that begins with
a star or a slash where the first one does not. -/
theorem transfer (h : Single url c t) (hurl : url' = none → url = none) (hnil : t = [] → t' = [])
    (hnext : ∀ x u, x = '*' ∨ x = '/' → t' = x :: u → ∃ v, t = x :: v) : Single url' c t' where
  escape hc := hnil (h.escape hc)
  comment hc hnone x u hx := by
    constructor
    · rintro rfl
      obtain ⟨v, hv⟩ := hnext _ u (Or.inl rfl) hx
      exact (h.comment hc (hurl hnone) _ v hv).1 rfl
    · rintro rfl
      obtain ⟨v, hv⟩ := hnext _ u (Or.inr rfl) hx
      exact (h.comment hc (hurl hnone) _ v hv).2 rfl

/-- Only the next character matters. -/
theorem congr_head? (h : Single url c t) (hhead : t'.head? = t.head?) : Single url c t' := by
  refine h.transfer id (fun hnil => ?_) fun x u _ hx => ?_
  · rw [hnil] at hhead
    exact List.head?_eq_none_iff.mp hhead
  · rw [hx] at hhead
    exact List.head?_eq_some_iff.mp hhead.symm

theorem append {x : Char} (h : Single url c (x :: t)) (r : Text) : Single url c (x :: t ++ r) :=
  h.congr_head? rfl

end Single

/-- The scanner's choice at a character that stands for itself. -/
theorem reach_code {depth : Nat} {url : Option Nat} {before t : Text} {c : Char}
    (h : Single url c t) :
    reach .code depth url before (c :: t) =
      if isQuote c then (reach (.quoted c) depth url (c :: before) t).map (· + 1)
      else if isOpening c then
        (reach .code (depth + 1)
          (if c = '(' && url.isNone && afterUrl before then some (depth + 1) else url)
          (c :: before) t).map (· + 1)
      else if isClosing c then
        if depth ≤ 1 then some 1
        else (reach .code (depth - 1) (if url = some depth then none else url)
          (c :: before) t).map (· + 1)
      else (reach .code depth url (c :: before) t).map (· + 1) := by
  rw [reach]
  · rintro x u rfl rfl
    exact absurd (h.escape rfl) (List.cons_ne_nil _ _)
  · rintro u rfl rfl rfl
    exact (h.comment rfl rfl _ _ rfl).1 rfl
  · rintro u rfl rfl rfl
    exact (h.comment rfl rfl _ _ rfl).2 rfl

section

variable {depth : Nat} {url : Option Nat}

/-- An opening bracket takes the scanner one level down. -/
theorem reach_opening {c : Char} (hc : isOpening c = true) (before r : Text) :
    reach .code depth url before (c :: r) =
      (reach .code (depth + 1)
        (if c = '(' && url.isNone && afterUrl before then some (depth + 1) else url)
        (c :: before) r).map (· + 1) := by
  rw [reach_code (.of_class hc (by decide) (by decide)),
    if_neg (by rw [isQuote_of_isOpening hc]; decide), if_pos hc]

/-- A closing bracket takes the scanner one level up or ends the scan. -/
theorem reach_closing {c : Char} (hc : isClosing c = true) (before r : Text) :
    reach .code depth url before (c :: r) =
      if depth ≤ 1 then some 1
      else (reach .code (depth - 1) (if url = some depth then none else url)
        (c :: before) r).map (· + 1) := by
  have hopen : ¬isOpening c = true := fun h => by
    rw [isClosing_of_isOpening h] at hc
    exact absurd hc (by decide)
  rw [reach_code (.of_class hc (by decide) (by decide)),
    if_neg (by rw [isQuote_of_isClosing hc]; decide), if_neg hopen, if_pos hc]

end

/-! ## One step -/

/-- Where the scanner is: what it is inside of, how deep, and in which `url` argument. -/
structure State where
  mode : Mode
  depth : Nat
  url : Option Nat

/-- The scan from there on. -/
def State.reach (s : State) : Text → Text → Option Nat := Brackets.reach s.mode s.depth s.url

@[simp] theorem State.reach_nil (s : State) (before : Text) : s.reach before [] = none := by
  rw [State.reach, Brackets.reach]

theorem State.reach_stop {depth : Nat} {c : Char} (hclose : isClosing c = true) (hdepth : depth ≤ 1)
    (url : Option Nat) (before t : Text) :
    (⟨.code, depth, url⟩ : State).reach before (c :: t) = some 1 := by
  rw [State.reach, reach_closing hclose, if_pos hdepth]

/-- With `before` behind it and `t` further ahead the scanner gets over a piece of text from one
state to the next. -/
inductive Step (before t : Text) : State → Text → State → Prop where
  | lineComment {depth : Nat} {url : Option Nat} (c : Char) :
    Step before t ⟨.lineComment, depth, url⟩ [c]
      ⟨if c = '\n' then .code else .lineComment, depth, url⟩
  | blockComment {depth : Nat} {url : Option Nat} {c : Char} (hend : c = '*' → ∀ u, t ≠ '/' :: u) :
    Step before t ⟨.blockComment, depth, url⟩ [c] ⟨.blockComment, depth, url⟩
  | blockCommentEnd {depth : Nat} {url : Option Nat} :
    Step before t ⟨.blockComment, depth, url⟩ ['*', '/'] ⟨.code, depth, url⟩
  | quoted {quote : Char} {depth : Nat} {url : Option Nat} {c : Char} (hnext : c = '\x5c' → t = []) :
    Step before t ⟨.quoted quote, depth, url⟩ [c]
      ⟨if c = quote then .code else .quoted quote, depth, url⟩
  | quotedEscape {quote : Char} {depth : Nat} {url : Option Nat} (c : Char) :
    Step before t ⟨.quoted quote, depth, url⟩ ['\x5c', c] ⟨.quoted quote, depth, url⟩
  | escape {depth : Nat} {url : Option Nat} (c : Char) :
    Step before t ⟨.code, depth, url⟩ ['\x5c', c] ⟨.code, depth, url⟩
  | blockCommentStart {depth : Nat} :
    Step before t ⟨.code, depth, none⟩ ['/', '*'] ⟨.blockComment, depth, none⟩
  | lineCommentStart {depth : Nat} :
    Step before t ⟨.code, depth, none⟩ ['/', '/'] ⟨.lineComment, depth, none⟩
  | quote {depth : Nat} {url : Option Nat} {c : Char} (hquote : isQuote c = true) :
    Step before t ⟨.code, depth, url⟩ [c] ⟨.quoted c, depth, url⟩
  | opening {depth : Nat} {url : Option Nat} {c : Char} (hopen : isOpening c = true) :
    Step before t ⟨.code, depth, url⟩ [c] ⟨.code, depth + 1,
      if c = '(' && url.isNone && afterUrl before then some (depth + 1) else url⟩
  | closing {depth : Nat} {url : Option Nat} {c : Char} (hclose : isClosing c = true)
      (hdepth : ¬ depth ≤ 1) :
    Step before t ⟨.code, depth, url⟩ [c]
      ⟨.code, depth - 1, if url = some depth then none else url⟩
  | other {depth : Nat} {url : Option Nat} {c : Char} (hsingle : Single url c t)
      (hquote : isQuote c = false) (hopen : isOpening c = false) (hclose : isClosing c = false) :
    Step before t ⟨.code, depth, url⟩ [c] ⟨.code, depth, url⟩

section

variable {before t p : Text} {s s' : State}

theorem Step.ne_nil (h : Step before t s p s') : p ≠ [] := by
  cases h <;> exact List.cons_ne_nil _ _

/-- The scanner goes on behind the step. -/
theorem Step.reach_eq (h : Step before t s p s') :
    s.reach before (p ++ t) = (s'.reach (p.reverse ++ before) t).map (· + p.length) := by
  cases h with
  | lineComment =>
    rw [List.singleton_append, State.reach, reach]
    rfl
  | @blockComment depth url c hend =>
    show Brackets.reach .blockComment depth url before (c :: t) = _
    rw [reach]
    · rfl
    · exact fun u hc hu => hend hc u hu
  | @quoted quote depth url c hnext =>
    show Brackets.reach (.quoted quote) depth url before (c :: t) = _
    rw [reach]
    · rfl
    · rintro x u hc rfl
      exact List.cons_ne_nil _ _ (hnext hc)
  | blockCommentEnd | quotedEscape | escape | blockCommentStart | lineCommentStart =>
    rw [List.cons_append, List.singleton_append, State.reach, reach]
    rfl
  | quote hquote =>
    rw [List.singleton_append, State.reach, reach_code (.of_class hquote (by decide) (by decide)),
      if_pos hquote]
    rfl
  | opening hopen =>
    rw [List.singleton_append, State.reach, reach_opening hopen]
    rfl
  | closing hclose hdepth =>
    rw [List.singleton_append, State.reach, reach_closing hclose, if_neg hdepth]
    rfl
  | other hsingle hquote hopen hclose =>
    rw [List.singleton_append, State.reach, reach_code hsingle, hquote, hopen, hclose]
    rfl

/-- The same step is taken if what is behind and what is ahead look alike: nothing new is the other
half of a mark. -/
theorem Step.transfer {before' t' : Text} (h : Step before t s p s')
    (hbehind : afterUrl before = afterUrl before') (hnil : t = [] → t' = [])
    (hnext : ∀ x u, x = '*' ∨ x = '/' → t' = x :: u → ∃ v, t = x :: v) : Step before' t' s p s' := by
  cases h with
  | lineComment c => exact .lineComment c
  | blockComment hend =>
    refine .blockComment fun hc u hu => ?_
    obtain ⟨v, hv⟩ := hnext '/' u (Or.inr rfl) hu
    exact hend hc v hv
  | blockCommentEnd => exact .blockCommentEnd
  | quoted hlast => exact .quoted fun hc => hnil (hlast hc)
  | quotedEscape c => exact .quotedEscape c
  | escape c => exact .escape c
  | blockCommentStart => exact .blockCommentStart
  | lineCommentStart => exact .lineCommentStart
  | quote hquote => exact .quote hquote
  | opening hopen =>
    rw [hbehind]
    exact .opening hopen
  | closing hclose hdepth => exact .closing hclose hdepth
  | other hsingle hquote hopen hclose =>
    exact .other (hsingle.transfer id hnil hnext) hquote hopen hclose

/-- In front of a longer text the scanner takes the same step. -/
theorem Step.append {before' : Text} (h : Step before t s p s')
    (hbehind : afterUrl before = afterUrl before') (ht : t ≠ []) (r : Text) :
    Step before' (t ++ r) s p s' := by
  obtain ⟨x, u, rfl⟩ := List.exists_cons_of_ne_nil ht
  refine h.transfer hbehind (fun hnil => absurd hnil ht) fun y v _ hy => ⟨u, ?_⟩
  rw [(List.cons.inj hy).1]

end

/-- An induction along the steps of a scan. -/
@[elab_as_elim]
theorem State.induction {motive : State → Text → Text → Prop}
    (nil : ∀ s before, motive s before [])
    (stop : ∀ depth url before c t, isClosing c = true → depth ≤ 1 →
      motive ⟨.code, depth, url⟩ before (c :: t))
    (step : ∀ s before p t s', Step before t s p s' → motive s' (p.reverse ++ before) t →
      motive s before (p ++ t))
    (s : State) (before t : Text) : motive s before t := by
  obtain ⟨mode, depth, url⟩ := s
  induction mode, depth, url, before, t using reach.induct with
  | case1 => exact nil _ _
  | case2 depth url before c t ih => exact step _ _ [c] t _ (.lineComment c) ih
  | case3 depth url before t ih => exact step _ _ ['*', '/'] t _ .blockCommentEnd ih
  | case4 depth url before c t hend ih =>
    exact step _ _ [c] t _ (.blockComment fun hc u hu => hend u hc hu) ih
  | case5 quote depth url before c t ih => exact step _ _ ['\x5c', c] t _ (.quotedEscape c) ih
  | case6 quote depth url before c t hnext ih =>
    refine step _ _ [c] t _ (.quoted fun hc => ?_) ih
    cases t with
    | nil => rfl
    | cons x t => exact (hnext x t hc rfl).elim
  | case7 depth url before c t ih => exact step _ _ ['\x5c', c] t _ (.escape c) ih
  | case8 depth before t ih => exact step _ _ ['/', '*'] t _ .blockCommentStart ih
  | case9 depth before t ih => exact step _ _ ['/', '/'] t _ .lineCommentStart ih
  | case10 depth url before c t h1 h2 h3 hquote ih => exact step _ _ [c] t _ (.quote hquote) ih
  | case11 depth url before c t h1 h2 h3 hquote hopen url' ih =>
    exact step _ _ [c] t _ (.opening hopen) ih
  | case12 depth url before c t h1 h2 h3 hquote hopen hclose hdepth =>
    exact stop depth url before c t hclose hdepth
  | case13 depth url before c t h1 h2 h3 hquote hopen hclose hdepth url' ih =>
    exact step _ _ [c] t _ (.closing hclose hdepth) ih
  | case14 depth url before c t h1 h2 h3 hquote hopen hclose ih =>
    exact step _ _ [c] t _ (.other (.of_not h1 h2 h3) (Bool.eq_false_iff.mpr hquote)
      (Bool.eq_false_iff.mpr hopen) (Bool.eq_false_iff.mpr hclose)) ih

/-- In front of a text the scanner stops or takes a step. -/
theorem exists_step (s : State) (before : Text) {t : Text} (ht : t ≠ []) :
    (s.mode = .code ∧ s.depth ≤ 1 ∧ ∃ c u, t = c :: u ∧ isClosing c = true) ∨
      ∃ p u s', t = p ++ u ∧ Step before u s p s' := by
  induction s, before, t using State.induction with
  | nil => exact absurd rfl ht
  | stop depth url before c t hclose hdepth => exact .inl ⟨rfl, hdepth, c, t, rfl, hclose⟩
  | step s before p t s' hstep _ => exact .inr ⟨p, t, s', rfl, hstep⟩

/-! ## Where a scan stops -/

/-- A scan ends at a closing bracket. -/
theorem State.exists_of_reach {s : State} {before t : Text} {n : Nat}
    (h : s.reach before t = some n) :
    ∃ body close r, t = body ++ close :: r ∧ isClosing close = true ∧ n = body.length + 1 := by
  induction s, before, t using State.induction generalizing n with
  | nil => exact absurd h (by simp)
  | stop depth url before c t hclose hdepth =>
    rw [State.reach_stop hclose hdepth] at h
    exact ⟨[], c, t, rfl, hclose, (Option.some.inj h).symm⟩
  | step s before p t s' hstep ih =>
    rw [hstep.reach_eq] at h
    obtain ⟨m, hm, rfl⟩ := Option.map_eq_some_iff.mp h
    obtain ⟨body, close, r, rfl, hclose, rfl⟩ := ih hm
    exact ⟨p ++ body, close, r, by simp, hclose, by rw [List.length_append]; omega⟩

theorem exists_of_reach {mode : Mode} {depth : Nat} {url : Option Nat} {before t : Text} {n : Nat}
    (h : reach mode depth url before t = some n) :
    ∃ body close r, t = body ++ close :: r ∧ isClosing close = true ∧ n = body.length + 1 :=
  State.exists_of_reach (s := ⟨mode, depth, url⟩) h

theorem reach_pos {mode : Mode} {depth : Nat} {url : Option Nat} {before t : Text} {n : Nat}
    (h : reach mode depth url before t = some n) : 1 ≤ n ∧ n ≤ t.length := by
  obtain ⟨body, close, r, rfl, -, rfl⟩ := exists_of_reach h
  rw [List.length_append, List.length_cons]
  omega

theorem exists_cons_of_reach {mode : Mode} {depth : Nat} {url : Option Nat} {before t : Text}
    {n : Nat} (h : reach mode depth url before t = some n) : ∃ x u, t = x :: u := by
  cases t with
  | nil => exact absurd h (by simp [reach])
  | cons x u => exact ⟨x, u, rfl⟩

/-- The text `t` at the offset `start` is a bracket that `op` opens, with `value` in it.
If there is no bracket that closes it, nothing is behind it. -/
def Boxed (op : Char) (value : Slice) (closed : Bool) (start : Nat) (t after : Text) : Prop :=
  value.start = start + 1 ∧
    if closed then ∃ close, isClosing close = true ∧ t = op :: (value.text ++ [close])
    else t = op :: value.text ∧ after = []

/-- A bracket at the cursor extends to the one that closes it, or to the end. -/
theorem boxed_closing {c : Cursor} {op : Char} {r : Text} (hop : isOpening op = true)
    (hc : c.rest = op :: r) :
    ∃ t, c.Passes t (c.advance (closing c).length) ∧ t.length = (closing c).length ∧
      Boxed op (inner c (closing c)) (closing c).closed c.offset t
        (c.advance (closing c).length).rest := by
  have hstart : (c.advance 1).offset = c.offset + 1 := by
    have hp : c.Passes [op] (c.advance 1) := Cursor.passes_advance_of_append hc
    rw [hp.offset, Text.bytes_cons, Text.bytes_nil, utf8Size_of_isOpening hop]
  have hrest : (c.advance 1).rest = r := by rw [Cursor.rest_advance, hc]; rfl
  cases hk : reach .code 0 none c.before c.rest with
  | none =>
    have hclosing : closing c = ⟨c.rest.length, false⟩ := by rw [closing, hk]
    have hnil : c.rest = c.rest ++ [] := (List.append_nil _).symm
    rw [hclosing]
    refine ⟨c.rest, Cursor.passes_advance_of_append hnil, rfl, hstart, ?_, ?_⟩
    · have hlength : c.rest.length - 1 = r.length := by rw [hc]; rfl
      rw [inner, Closing.inner, if_neg Bool.false_ne_true, Cursor.ahead, hrest, hlength,
        List.take_length, hc]
    · exact Cursor.rest_advance_of_append hnil
  | some n =>
    have hclosing : closing c = ⟨n, true⟩ := by rw [closing, hk]
    obtain ⟨body, close, after, htext, hclose, rfl⟩ := exists_of_reach hk
    -- an opening bracket is not the closing one, so it is the first character of `body`
    have hbody : ∃ value, body = op :: value ∧ r = value ++ close :: after := by
      cases body with
      | nil =>
        rw [hc] at htext
        obtain ⟨rfl, -⟩ := List.cons.inj htext
        rw [isClosing_of_isOpening hop] at hclose
        exact absurd hclose (by decide)
      | cons x value =>
        rw [hc] at htext
        obtain ⟨rfl, hr⟩ := List.cons.inj htext
        exact ⟨value, rfl, hr⟩
    obtain ⟨value, rfl, hr⟩ := hbody
    have hsplit : c.rest = (op :: (value ++ [close])) ++ after := by
      rw [htext]
      simp
    have hlength : (op :: (value ++ [close])).length = (op :: value).length + 1 := by simp
    rw [hclosing]
    refine ⟨op :: (value ++ [close]), ?_, hlength, hstart, close, hclose, ?_⟩
    · have hp := Cursor.passes_advance_of_append hsplit
      rwa [hlength] at hp
    · have hvalue : (inner c ⟨(op :: value).length + 1, true⟩).text = value := by
        rw [inner, Closing.inner, if_pos rfl, Cursor.ahead, hrest, hr]
        exact List.take_left' rfl
      rw [hvalue]

/-! ## Ordinary text -/

/-- Characters that mean nothing to the scanner, slashes apart. -/
def isPlain (c : Char) : Bool := !isQuote c && !isOpening c && !isClosing c && c != '\x5c'

theorem isPlain_iff {c : Char} :
    isPlain c = true ↔
      isQuote c = false ∧ isOpening c = false ∧ isClosing c = false ∧ c ≠ '\x5c' := by
  simp [isPlain, and_assoc]

/-- The text holds nothing that begins a comment. -/
def NoComment (t : Text) : Prop := ¬ ['/', '/'] <:+: t ∧ ¬ ['/', '*'] <:+: t

instance (t : Text) : Decidable (NoComment t) := inferInstanceAs (Decidable (_ ∧ _))

theorem NoComment.of_infix {t u : Text} (h : NoComment u) (ht : t <:+: u) : NoComment t :=
  ⟨fun hi => h.1 (hi.trans ht), fun hi => h.2 (hi.trans ht)⟩

/-- Where no comment begins any character but the backslash stands for itself. -/
theorem Single.of_noComment {url : Option Nat} {c : Char} {t : Text} (hescape : c ≠ '\x5c')
    (h : NoComment (c :: t)) : Single url c t where
  escape hc := absurd hc hescape
  comment := by
    rintro rfl - x u rfl
    constructor
    · rintro rfl
      exact h.2 ⟨[], u, rfl⟩
    · rintro rfl
      exact h.1 ⟨[], u, rfl⟩

/-- Ordinary text changes nothing for the scanner. -/
theorem reach_plain {depth : Nat} {url : Option Nat} :
    ∀ (t before r : Text), (∀ c ∈ t, isPlain c = true) → NoComment (t ++ r.take 1) →
      reach .code depth url before (t ++ r) =
        (reach .code depth url (t.reverse ++ before) r).map (· + t.length)
  | [], before, r, _, _ => by simp
  | c :: t, before, r, hplain, hcomment => by
    obtain ⟨hquote, hopen, hclose, hescape⟩ := isPlain_iff.mp (hplain c (List.mem_cons_self ..))
    have hrest : NoComment (t ++ r.take 1) :=
      hcomment.of_infix ((List.suffix_cons c (t ++ r.take 1)).isInfix)
    have ih : reach .code depth url (c :: before) (t ++ r) =
        (reach .code depth url (t.reverse ++ (c :: before)) r).map (· + t.length) :=
      reach_plain t (c :: before) r (fun x hx => hplain x (List.mem_cons_of_mem _ hx)) hrest
    have hsingle : Single url c (t ++ r) := by
      refine (Single.of_noComment hescape hcomment).congr_head? ?_
      cases t <;> cases r <;> rfl
    rw [List.cons_append, reach_code hsingle, hquote, hopen, hclose, ih]
    simp [Function.comp_def, Nat.add_assoc]

/-- An opening parenthesis takes the scanner one level down. -/
theorem reach_open (depth : Nat) (url : Option Nat) (before r : Text) :
    reach .code depth url before ('(' :: r) =
      (reach .code (depth + 1)
        (if url.isNone && afterUrl before then some (depth + 1) else url)
        ('(' :: before) r).map (· + 1) := by
  rw [reach_opening (by decide)]
  rfl

/-- A closing parenthesis below the first level takes the scanner one level up. -/
theorem reach_close {depth : Nat} (h : 2 ≤ depth) (url : Option Nat) (before r : Text) :
    reach .code depth url before (')' :: r) =
      (reach .code (depth - 1) (if url = some depth then none else url)
        (')' :: before) r).map (· + 1) := by
  rw [reach_closing (by decide), if_neg (by omega)]

/-- A closing bracket at the first level ends the scan. -/
theorem reach_end {close : Char} (hclose : isClosing close = true) (url : Option Nat)
    (before r : Text) : reach .code 1 url before (close :: r) = some 1 := by
  rw [reach_closing hclose, if_pos (Nat.le_refl 1)]

/-! ## Simulating a scan at another depth -/

/-- Two texts behind the scanner look alike to it, whatever is read next. -/
def SameBehind (b b' : Text) : Prop := ∀ y, afterUrl (y ++ b) = afterUrl (y ++ b')

theorem SameBehind.afterUrl_eq {b b' : Text} (h : SameBehind b b') : afterUrl b = afterUrl b' := h []

theorem SameBehind.append {b b' : Text} (h : SameBehind b b') (p : Text) :
    SameBehind (p ++ b) (p ++ b') := by
  intro y
  have hy := h (y ++ p)
  rwa [List.append_assoc, List.append_assoc] at hy

/-- Is the character no letter of `url`? -/
def isForeign (c : Char) : Bool := c.toLower != 'u' && c.toLower != 'r' && c.toLower != 'l'

theorem isForeign_iff {c : Char} :
    isForeign c = true ↔ c.toLower ≠ 'u' ∧ c.toLower ≠ 'r' ∧ c.toLower ≠ 'l' := by
  simp [isForeign, and_assoc]

/-- A character that is no letter of `url` hides what is behind it. -/
theorem sameBehind_cons {c c' : Char} (hc : isForeign c = true) (hc' : isForeign c' = true)
    (b b' : Text) : SameBehind (c :: b) (c' :: b') := by
  have last : ∀ (z : Char) (u : Text), isForeign z = true → afterUrl (z :: u) = false := by
    intro z u hz
    match u with
    | [] | [_] => rfl
    | _ :: _ :: _ => simp [afterUrl, (isForeign_iff.mp hz).2.2]
  have middle : ∀ (x z : Char) (u : Text), isForeign z = true →
      afterUrl (x :: z :: u) = false := by
    intro x z u hz
    match u with
    | [] => rfl
    | _ :: _ => simp [afterUrl, (isForeign_iff.mp hz).2.1]
  have first : ∀ (x y z : Char) (u : Text), isForeign z = true →
      afterUrl (x :: y :: z :: u) = false := by
    intro x y z u hz
    simp [afterUrl, (isForeign_iff.mp hz).1]
  intro y
  match y with
  | [] => rw [List.nil_append, List.nil_append, last _ _ hc, last _ _ hc']
  | [x] => rw [List.singleton_append, List.singleton_append, middle _ _ _ hc, middle _ _ _ hc']
  | [x, z] => exact (first x z c b hc).trans (first x z c' b' hc').symm
  | _ :: _ :: _ :: _ => rfl

/-- A bracket hides what is behind it. -/
theorem sameBehind_bracket (b b' : Text) : SameBehind ('[' :: b) ('[' :: b') :=
  sameBehind_cons (by decide) (by decide) b b'

/-- The `url` argument that a scan of its own may be in: a `hidden` scan stays inside of
one that it has not opened, any other closes those that it opens. -/
def Marked (hidden : Bool) (depth : Nat) (url : Option Nat) : Prop :=
  if hidden then url = some 0 else ∀ m ∈ url, 2 ≤ m ∧ m ≤ depth

/-- The same argument for a scan `d` levels further down that came from `outer`. -/
def lift (hidden : Bool) (outer : Option Nat) (d : Nat) (url : Option Nat) : Option Nat :=
  if hidden then outer else url.map (· + d)

/-- Outside of the scan of its own there is a `url` argument exactly if it is `hidden`. -/
def Surrounds (hidden : Bool) (outer : Option Nat) (d : Nat) : Prop :=
  if hidden then ∃ m, outer = some m ∧ m ≤ d else outer = none

theorem lift_eq_none {hidden : Bool} {outer url : Option Nat} {d : Nat}
    (ho : Surrounds hidden outer d) (h : lift hidden outer d url = none) : url = none := by
  cases hidden with
  | true =>
    obtain ⟨m, rfl, -⟩ := ho
    exact absurd h (by simp [lift])
  | false => simpa [lift] using h

theorem marked_open {hidden : Bool} {depth : Nat} {url : Option Nat} {p q : Bool}
    (h : Marked hidden depth url) (hdepth : 1 ≤ depth) :
    Marked hidden (depth + 1) (if p && url.isNone && q then some (depth + 1) else url) := by
  cases hidden with
  | true =>
    obtain rfl : url = some 0 := h
    simp [Marked]
  | false =>
    intro m hm
    split at hm
    · obtain rfl : depth + 1 = m := by simpa using hm
      omega
    · have := h m hm
      omega

theorem marked_close {hidden : Bool} {depth : Nat} {url : Option Nat}
    (h : Marked hidden depth url) (hdepth : 2 ≤ depth) :
    Marked hidden (depth - 1) (if url = some depth then none else url) := by
  cases hidden with
  | true =>
    obtain rfl : url = some 0 := h
    rw [if_neg (by simp; omega)]
    rfl
  | false =>
    intro m hm
    split at hm
    · exact absurd hm (by simp)
    next hne =>
      have hm' := h m hm
      have : m ≠ depth := by
        rintro rfl
        exact hne hm
      omega

theorem lift_open {hidden : Bool} {outer url : Option Nat} {d depth : Nat} {p q : Bool}
    (ho : Surrounds hidden outer d) (h : Marked hidden depth url) :
    (if p && (lift hidden outer d url).isNone && q then some (depth + d + 1)
        else lift hidden outer d url) =
      lift hidden outer d (if p && url.isNone && q then some (depth + 1) else url) := by
  cases hidden with
  | true =>
    obtain ⟨m, rfl, -⟩ := ho
    simp [lift]
  | false =>
    cases url with
    | none =>
      rw [Nat.add_right_comm]
      cases p <;> cases q <;> simp [lift]
    | some m => simp [lift]

theorem lift_close {hidden : Bool} {outer url : Option Nat} {d depth : Nat}
    (ho : Surrounds hidden outer d) (h : Marked hidden depth url) (hdepth : 1 ≤ depth) :
    (if lift hidden outer d url = some (depth + d) then none else lift hidden outer d url) =
      lift hidden outer d (if url = some depth then none else url) := by
  cases hidden with
  | true =>
    obtain ⟨m, rfl, hm⟩ := ho
    have : m ≠ depth + d := by omega
    simp [lift, this]
  | false =>
    cases url with
    | none => simp [lift]
    | some m => by_cases hm : m = depth <;> simp [lift, hm]

/-- At the first level no argument of a scan's own is open. -/
theorem lift_one {hidden : Bool} {outer url : Option Nat} {d : Nat}
    (ho : Surrounds hidden outer d) (h : Marked hidden 1 url) :
    lift hidden outer d url = outer := by
  cases hidden with
  | true => rfl
  | false =>
    obtain rfl : outer = none := ho
    cases url with
    | none => rfl
    | some m =>
      have := h m rfl
      omega

/-- What a scan that ends after `n` characters says about scans of a longer text that
come from further left: they get to the bracket that ends it. -/
def Simulated (hidden : Bool) (mode : Mode) (depth : Nat) (url : Option Nat) (before t : Text)
    (n : Nat) : Prop :=
  ∃ body close rest, t = body ++ close :: rest ∧ n = body.length + 1 ∧
    ∀ (d : Nat) (outer : Option Nat) (before' r : Text), SameBehind before before' →
      Surrounds hidden outer d →
      reach mode (depth + d) (lift hidden outer d url) before' (t ++ r) =
        (reach .code (1 + d) outer (body.reverse ++ before') (close :: (rest ++ r))).map
          (· + body.length)

/-- Both scans take a step over `p`. -/
theorem Simulated.step {hidden : Bool} {mode mode' : Mode} {depth depth' : Nat}
    {url url' : Option Nat} {before t : Text} {k : Nat} (p : Text)
    (h : Simulated hidden mode' depth' url' (p.reverse ++ before) t k)
    (hstep : ∀ (d : Nat) (outer : Option Nat) (before' r : Text), SameBehind before before' →
      Surrounds hidden outer d →
      reach mode (depth + d) (lift hidden outer d url) before' (p ++ (t ++ r)) =
        (reach mode' (depth' + d) (lift hidden outer d url') (p.reverse ++ before')
          (t ++ r)).map (· + p.length)) :
    Simulated hidden mode depth url before (p ++ t) (k + p.length) := by
  obtain ⟨body, close, rest, rfl, rfl, hsim⟩ := h
  refine ⟨p ++ body, close, rest, by simp, by rw [List.length_append]; omega, ?_⟩
  intro d outer before' r hb ho
  have hs := hstep d outer before' r hb ho
  rw [hsim d outer _ r (hb.append _) ho] at hs
  rw [List.append_assoc, hs]
  simp [Function.comp_def, Nat.add_comm, Nat.add_left_comm]

/-- The same state for a scan `d` levels further down that came from `outer`. -/
def State.lift (hidden : Bool) (outer : Option Nat) (d : Nat) (s : State) : State :=
  ⟨s.mode, s.depth + d, Brackets.lift hidden outer d s.url⟩

section

variable {hidden : Bool} {before t p : Text} {s s' : State}

/-- A scan of its own goes on below the outermost level, and in no argument but those of it. -/
theorem Step.marked (h : Step before t s p s') (hdepth : 1 ≤ s.depth)
    (hurl : Marked hidden s.depth s.url) : 1 ≤ s'.depth ∧ Marked hidden s'.depth s'.url := by
  cases h with
  | opening hopen => exact ⟨Nat.le_add_left .., marked_open hurl hdepth⟩
  | closing hclose hbelow =>
    have hbelow : 2 ≤ _ := Nat.lt_of_not_le hbelow
    exact ⟨Nat.le_sub_one_of_lt hbelow, marked_close hurl hbelow⟩
  | _ => exact ⟨hdepth, hurl⟩

/-- Further down the scanner takes the same step. -/
theorem Step.lift (h : Step before t s p s') (hdepth : 1 ≤ s.depth)
    (hurl : Marked hidden s.depth s.url) {d : Nat} {outer : Option Nat}
    (ho : Surrounds hidden outer d) :
    Step before t (s.lift hidden outer d) p (s'.lift hidden outer d) := by
  cases h with
  | lineComment c => exact .lineComment c
  | blockComment hend => exact .blockComment hend
  | blockCommentEnd => exact .blockCommentEnd
  | quoted hnext => exact .quoted hnext
  | quotedEscape c => exact .quotedEscape c
  | escape c => exact .escape c
  -- a comment begins only outside of `url` arguments, and so for a scan that is not hidden
  | blockCommentStart =>
    cases hidden with
    | true => exact absurd hurl (by simp [Marked])
    | false => exact .blockCommentStart
  | lineCommentStart =>
    cases hidden with
    | true => exact absurd hurl (by simp [Marked])
    | false => exact .lineCommentStart
  | quote hquote => exact .quote hquote
  | @opening depth url c hopen =>
    have hstep : Step before t ⟨.code, depth + d, Brackets.lift hidden outer d url⟩ [c] _ :=
      .opening hopen
    rw [lift_open ho hurl, Nat.add_right_comm] at hstep
    exact hstep
  | @closing depth url c hclose hbelow =>
    have hstep : Step before t ⟨.code, depth + d, Brackets.lift hidden outer d url⟩ [c] _ :=
      .closing hclose (by omega)
    rw [lift_close ho hurl hdepth, Nat.sub_add_comm hdepth] at hstep
    exact hstep
  | other hsingle hquote hopen hclose =>
    refine .other ?_ hquote hopen hclose
    exact hsingle.transfer (lift_eq_none ho) id fun _ v _ hv => ⟨v, hv⟩

end

theorem State.simulated {hidden : Bool} {s : State} {before t : Text} {n : Nat}
    (h : s.reach before t = some n) (hdepth : 1 ≤ s.depth) (hurl : Marked hidden s.depth s.url) :
    Simulated hidden s.mode s.depth s.url before t n := by
  induction s, before, t using State.induction generalizing n with
  | nil => exact absurd h (by simp)
  | stop depth url before c t hclose hle =>
    obtain rfl : depth = 1 := Nat.le_antisymm hle hdepth
    rw [State.reach_stop hclose hle] at h
    obtain rfl := Option.some.inj h
    refine ⟨[], c, t, rfl, rfl, fun d outer before' r hb ho => ?_⟩
    rw [lift_one ho hurl]
    simp
  | step s before p t s' hstep ih =>
    rw [hstep.reach_eq] at h
    obtain ⟨k, hk, rfl⟩ := Option.map_eq_some_iff.mp h
    obtain ⟨hdepth', hurl'⟩ := hstep.marked hdepth hurl
    have ht : t ≠ [] := List.ne_nil_of_length_pos (by have := reach_pos hk; omega)
    exact (ih hk hdepth' hurl').step p fun d outer before' r hb ho =>
      ((hstep.append hb.afterUrl_eq ht r).lift hdepth hurl ho).reach_eq

theorem reach_simulates {hidden : Bool} {mode : Mode} {depth : Nat} {url : Option Nat}
    {before t : Text} {n : Nat} (h : reach mode depth url before t = some n)
    (hdepth : 1 ≤ depth) (hurl : Marked hidden depth url) :
    Simulated hidden mode depth url before t n :=
  State.simulated (s := ⟨mode, depth, url⟩) h hdepth hurl

/-! ## Brackets that close -/

/-- The bracket around `t` closes at its end.  With `inUrl` this is asked of a bracket
inside of a `url` argument, where nothing is a comment. -/
def Sealed (inUrl : Bool) (t : Text) : Prop :=
  reach .code 0 (if inUrl then some 0 else none) [] ('[' :: (t ++ [']'])) = some (t.length + 2)

instance (inUrl : Bool) (t : Text) : Decidable (Sealed inUrl t) :=
  inferInstanceAs (Decidable (_ = _))

/-- An opening bracket takes the scanner one level down. -/
theorem reach_bracket (depth : Nat) (url : Option Nat) (before r : Text) :
    reach .code depth url before ('[' :: r) =
      (reach .code (depth + 1) url ('[' :: before) r).map (· + 1) := by
  rw [reach_opening (by decide)]
  rfl

/-- Inside of a sealed bracket the scanner gets to the closing one. -/
theorem Sealed.reach {hidden : Bool} {t : Text} (h : Sealed hidden t) {d : Nat}
    {outer : Option Nat} (ho : Surrounds hidden outer d) (before r : Text) :
    reach .code (d + 1) outer ('[' :: before) (t ++ ']' :: r) =
      (reach .code (d + 1) outer (t.reverse ++ '[' :: before) (']' :: r)).map (· + t.length) := by
  unfold Sealed at h
  rw [reach_bracket] at h
  obtain ⟨n, hn, hlen⟩ := Option.map_eq_some_iff.mp h
  have hmarked : Marked hidden 1 (if hidden then some 0 else none) := by
    cases hidden <;> simp [Marked]
  obtain ⟨body, close, rest, htext, rfl, hsim⟩ := reach_simulates hn (Nat.le_refl 1) hmarked
  -- the scan of the bracket ends with its text, so what is in front of that is `t`
  have hbody : body.length = t.length := by omega
  obtain ⟨rfl, hclose⟩ := List.append_inj htext hbody.symm
  obtain ⟨rfl, rfl⟩ := List.cons.inj hclose
  have hlift : lift hidden outer d (if hidden then some 0 else none) = outer := by
    cases hidden with
    | true => rfl
    | false =>
      obtain rfl : outer = none := ho
      rfl
  have hs := hsim d outer ('[' :: before) r (sameBehind_bracket _ _) ho
  rw [hlift, List.append_assoc, List.singleton_append, Nat.add_comm 1 d] at hs
  exact hs

/-- A sealed bracket is closed where it ends, wherever it stands. -/
theorem closing_of_sealed {c : Cursor} {t r : Text} (h : Sealed false t)
    (hc : c.rest = '[' :: (t ++ ']' :: r)) : closing c = ⟨t.length + 2, true⟩ := by
  have hreach : reach .code 0 none c.before c.rest = some (t.length + 2) := by
    rw [hc, reach_bracket, h.reach (d := 0) rfl, reach_end (by decide)]
    simp only [Option.map_some, Option.some.injEq]
    omega
  rw [closing, hreach]

/-- Below the first level the scanner gets over a sealed bracket. -/
theorem reach_box {t : Text} {depth : Nat} {url : Option Nat} (hdepth : 1 ≤ depth)
    (hurl : ∀ m ∈ url, m ≤ depth) (h : Sealed false t) (h' : url.isSome → Sealed true t)
    (before r : Text) :
    reach .code depth url before ('[' :: (t ++ ']' :: r)) =
      (reach .code depth url (']' :: (t.reverse ++ '[' :: before)) r).map (· + (t.length + 2)) := by
  have inside : reach .code (depth + 1) url ('[' :: before) (t ++ ']' :: r) =
      (reach .code (depth + 1) url (t.reverse ++ '[' :: before) (']' :: r)).map
        (· + t.length) := by
    cases url with
    | none => exact h.reach rfl before r
    | some m => exact (h' rfl).reach ⟨m, rfl, hurl m rfl⟩ before r
  have hne : url ≠ some (depth + 1) := by
    rintro rfl
    have := hurl (depth + 1) rfl
    omega
  have close : reach .code (depth + 1) url (t.reverse ++ '[' :: before) (']' :: r) =
      (reach .code depth url (']' :: (t.reverse ++ '[' :: before)) r).map (· + 1) := by
    rw [reach_closing (by decide), if_neg (by omega), if_neg hne, Nat.add_sub_cancel]
  rw [reach_bracket, inside, close]
  simp only [Option.map_map, Function.comp_def, Nat.add_comm, Nat.add_left_comm]

end Brackets
end UtilityCss
