import UtilityCss.Split
import UtilityCss.Proofs.Brackets

/-!
# What splitting at the top level leaves together

Where a text is split depends on the characters in front of each place, by way of the state that
they lead to.  A separating character counts where that is the state at the top level, and it
does not change it.  So the parts on both sides of such a place are those of two texts that are
split each on its own; this is `parts_append`, and everything else about parts follows from it.

Nothing is lost by splitting.  The parts, with the separating character between neighbours, are the
text, and each of them is split into itself.  The character between two texts keeps their parts apart
if the first text ends at the top level, and only then: in a quote, in a bracket or behind a backslash
the last part of the first text goes on across it.

A text is balanced if the state behind it is the top level again and no bracket is closed in it
that was not opened.  Parts of a balanced text are balanced.
-/

namespace UtilityCss

namespace Text

variable {p : Char → Bool} {c : Char}

theorem pieces_ne_nil (p : Char → Bool) (t : Text) : pieces p t ≠ [] := by
  cases t with
  | nil => simp [pieces]
  | cons c t =>
    unfold pieces
    split
    · simp
    · split <;> simp

/-- Pieces on both sides of a separating character. -/
theorem pieces_append (hc : p c = true) : ∀ t u : Text,
    pieces p (t ++ c :: u) = pieces p t ++ pieces p u
  | [], u => by
    have hpieces : pieces p (c :: u) = [] :: pieces p u := if_pos hc
    exact hpieces
  | x :: t, u => by
    show pieces p (x :: (t ++ c :: u)) = _
    rw [pieces, pieces, pieces_append hc t u]
    split
    · rfl
    · obtain ⟨piece, rest, hpieces⟩ := List.exists_cons_of_ne_nil (pieces_ne_nil p t)
      rw [hpieces]
      rfl

/-- A text without separating characters is one piece. -/
theorem pieces_eq_singleton : ∀ {t : Text}, (∀ x ∈ t, p x = false) → pieces p t = [t]
  | [], _ => rfl
  | x :: t, h => by
    obtain ⟨hx, ht⟩ := List.forall_mem_cons.mp h
    rw [pieces, hx, if_neg Bool.false_ne_true, pieces_eq_singleton ht]

/-- A text goes on to the first character of a class, if there is one. -/
theorem exists_first (p : Char → Bool) : ∀ t : Text, (∀ x ∈ t, p x = false) ∨
    ∃ a c b, t = a ++ c :: b ∧ p c = true ∧ ∀ x ∈ a, p x = false
  | [] => .inl fun _ hx => absurd hx List.not_mem_nil
  | x :: t => by
    cases hx : p x with
    | true => exact .inr ⟨[], x, t, rfl, hx, fun _ hy => absurd hy List.not_mem_nil⟩
    | false =>
      rcases exists_first p t with h | ⟨a, c, b, rfl, hc, ha⟩
      · exact .inl (List.forall_mem_cons.mpr ⟨hx, h⟩)
      · exact .inr ⟨x :: a, c, b, rfl, hc, List.forall_mem_cons.mpr ⟨hx, ha⟩⟩

end Text

namespace Split

namespace State

/-- The state behind a text. -/
def after (s : State) (t : Text) : State := t.foldl next s

@[simp] theorem after_nil (s : State) : s.after [] = s := rfl

@[simp] theorem after_cons (s : State) (c : Char) (t : Text) :
    s.after (c :: t) = (s.next c).after t := rfl

@[simp] theorem after_append (s : State) (t u : Text) :
    s.after (t ++ u) = (s.after t).after u := List.foldl_append

theorem isTop_iff {s : State} : s.isTop = true ↔ s = .top := by
  obtain ⟨depth, quote, escaped⟩ := s
  cases quote <;> cases escaped <;> simp [isTop, top]

/-- A character separates at the top level only, and only if nothing else is meant by it. -/
theorem splitsAt_iff {s : State} {p : Char → Bool} {c : Char} : s.splitsAt p c = true ↔
    s = .top ∧ p c = true ∧ Brackets.isPlain c = true := by
  simp only [splitsAt, Bool.and_eq_true, isTop_iff, Brackets.isPlain, and_assoc]
  tauto

/-- A character that means nothing leaves the top level as it is. -/
theorem next_plain {c : Char} (h : Brackets.isPlain c = true) : State.top.next c = .top := by
  obtain ⟨hquote, hopen, hclose, hescape⟩ := Brackets.isPlain_iff.mp h
  simp [next, top, hquote, hopen, hclose, hescape]

theorem after_plain {t : Text} (h : ∀ c ∈ t, Brackets.isPlain c = true) :
    State.top.after t = .top := by
  induction t with
  | nil => rfl
  | cons c t ih =>
    obtain ⟨hc, ht⟩ := List.forall_mem_cons.mp h
    rw [after_cons, next_plain hc, ih ht]

end State

/-- Blanks mean nothing. -/
theorem isPlain_of_isBlank {c : Char} (h : Text.isBlank c = true) : Brackets.isPlain c = true := by
  have hne : ∀ x : Char, Text.isBlank x = false → c ≠ x := by
    rintro x hx rfl
    rw [h] at hx
    exact Bool.noConfusion hx
  simp only [Brackets.isPlain_iff, Brackets.isQuote, Brackets.isOpening, Brackets.isClosing,
    Bool.or_eq_false_iff, decide_eq_false_iff_not]
  exact ⟨⟨hne _ (by decide), hne _ (by decide)⟩, ⟨⟨hne _ (by decide), hne _ (by decide)⟩,
    hne _ (by decide)⟩, ⟨⟨hne _ (by decide), hne _ (by decide)⟩, hne _ (by decide)⟩,
    hne _ (by decide)⟩

/-! ## Where a text is split -/

variable {p : Char → Bool} {s : State} {c : Char} {t u : Text}

/-- Parts on both sides of a separating character at the top level. -/
theorem parts_append (hp : p c = true) (hc : Brackets.isPlain c = true) :
    ∀ {t : Text} {s : State}, s.after t = .top → ∀ u : Text,
      parts p s (t ++ c :: u) = parts p s t ++ parts p .top u
  | [], s, h, u => by
    obtain rfl : s = .top := h
    have hparts : parts p .top (c :: u) = [] :: parts p .top u :=
      if_pos (State.splitsAt_iff.mpr ⟨rfl, hp, hc⟩)
    exact hparts
  | x :: t, s, h, u => by
    show parts p s (x :: (t ++ c :: u)) = _
    rw [parts, parts]
    split
    next hsplits =>
      obtain ⟨rfl, -, hx⟩ := State.splitsAt_iff.mp hsplits
      rw [State.after_cons, State.next_plain hx] at h
      rw [parts_append hp hc h u]
      rfl
    next =>
      have hnext : (s.next x).after t = .top := h
      rw [parts_append hp hc hnext u]
      obtain ⟨part, rest, hparts⟩ := List.exists_cons_of_ne_nil (parts_ne_nil p (s.next x) t)
      rw [hparts]
      rfl

/-- No character of the text separates at the top level. -/
def Whole (p : Char → Bool) (t : Text) : Prop :=
  ∀ a c b, t = a ++ c :: b → (State.top.after a).splitsAt p c = false

/-- The first part ends in front of the first separating character. -/
theorem exists_parts (p : Char → Bool) : ∀ (s : State) (t : Text),
    (parts p s t = [t] ∧ ∀ a c b, t = a ++ c :: b → (s.after a).splitsAt p c = false) ∨
    ∃ u c v, t = u ++ c :: v ∧ (s.after u).splitsAt p c = true ∧
      (∀ a c b, u = a ++ c :: b → (s.after a).splitsAt p c = false) ∧
      parts p s t = u :: parts p .top v
  | s, [] => .inl ⟨rfl, fun a c b h => absurd h (by simp)⟩
  | s, x :: t => by
    cases hx : s.splitsAt p x with
    | true =>
      obtain ⟨rfl, -, -⟩ := State.splitsAt_iff.mp hx
      exact .inr ⟨[], x, t, rfl, hx, fun a c b h => absurd h (by simp), by rw [parts, if_pos hx]⟩
    | false =>
      have hcons : ∀ {w : Text}, (∀ a c b, w = a ++ c :: b →
          ((s.next x).after a).splitsAt p c = false) →
          ∀ a c b, x :: w = a ++ c :: b → (s.after a).splitsAt p c = false := by
        intro w hw a c b h
        cases a with
        | nil =>
          obtain ⟨rfl, -⟩ := List.cons.inj h
          exact hx
        | cons y a =>
          obtain ⟨rfl, hwab⟩ := List.cons.inj h
          exact hw a c b hwab
      have hstep : ∀ {part rest}, parts p (s.next x) t = part :: rest →
          parts p s (x :: t) = (x :: part) :: rest := by
        intro part rest h
        rw [parts, h]
        exact if_neg (by rw [hx]; exact Bool.false_ne_true)
      rcases exists_parts p (s.next x) t with ⟨hparts, hwhole⟩ | ⟨u, c, v, rfl, hc, hu, hparts⟩
      · exact .inl ⟨hstep hparts, hcons hwhole⟩
      · exact .inr ⟨x :: u, c, v, rfl, hc, hcons hu, hstep hparts⟩

/-- A text is one part, or its first part stands in front of a separating character at the top
level. -/
theorem atTop_cases (p : Char → Bool) (t : Text) : (Whole p t ∧ atTop p t = [t]) ∨
    ∃ u c v, t = u ++ c :: v ∧ Whole p u ∧ State.top.after u = .top ∧ p c = true ∧
      Brackets.isPlain c = true ∧ atTop p t = u :: atTop p v := by
  rcases exists_parts p .top t with ⟨hparts, hwhole⟩ | ⟨u, c, v, rfl, hc, hu, hparts⟩
  · exact .inl ⟨hwhole, hparts⟩
  · obtain ⟨htop, hp, hplain⟩ := State.splitsAt_iff.mp hc
    exact .inr ⟨u, c, v, rfl, hu, htop, hp, hplain, hparts⟩

/-- What holds of texts that are one part, and of a text if it holds of what stands behind its
first part, holds of all texts. -/
@[elab_as_elim]
theorem atTop_induction (p : Char → Bool) {motive : Text → Prop}
    (whole : ∀ t, Whole p t → atTop p t = [t] → motive t)
    (split : ∀ u c v, Whole p u → State.top.after u = .top → p c = true →
      Brackets.isPlain c = true → atTop p (u ++ c :: v) = u :: atTop p v → motive v →
        motive (u ++ c :: v)) (t : Text) : motive t := by
  induction hlength : t.length using Nat.strongRecOn generalizing t with
  | _ n ih =>
    rcases atTop_cases p t with ⟨hwhole, hparts⟩ | ⟨u, c, v, rfl, hu, htop, hp, hplain, hparts⟩
    · exact whole t hwhole hparts
    · refine split u c v hu htop hp hplain hparts (ih v.length ?_ v rfl)
      rw [← hlength, List.length_append, List.length_cons]
      omega

theorem atTop_append (hp : p c = true) (hc : Brackets.isPlain c = true)
    (ht : State.top.after t = .top) (u : Text) :
    atTop p (t ++ c :: u) = atTop p t ++ atTop p u :=
  parts_append hp hc ht u

theorem atTop_eq_singleton_iff : atTop p t = [t] ↔ Whole p t := by
  rcases atTop_cases p t with ⟨hwhole, hparts⟩ | ⟨u, c, v, rfl, -, htop, hp, hplain, hparts⟩
  · exact iff_of_true hparts hwhole
  · refine iff_of_false (fun h => ?_) fun h => ?_
    · rw [hparts] at h
      exact parts_ne_nil p .top v (List.cons.inj h).2
    · exact Bool.false_ne_true
        ((h u c v rfl).symm.trans (State.splitsAt_iff.mpr ⟨htop, hp, hplain⟩))

/-- Without separating characters there is nothing to split. -/
theorem whole_of_forall (h : ∀ x ∈ t, p x = false) : Whole p t := by
  rintro a c b rfl
  refine Bool.eq_false_iff.mpr fun hc => ?_
  exact Bool.false_ne_true ((h c (by simp)).symm.trans (State.splitsAt_iff.mp hc).2.1)

/-- What belongs to the class and yet does not separate stands in quotes, in brackets or behind a
backslash. -/
theorem Whole.after_ne_top {a b : Text} (h : Whole p (a ++ c :: b)) (hp : p c = true)
    (hc : Brackets.isPlain c = true) : State.top.after a ≠ .top := fun htop =>
  Bool.false_ne_true ((h a c b rfl).symm.trans (State.splitsAt_iff.mpr ⟨htop, hp, hc⟩))

/-- Where a part stands in the text: it begins at the top level, and it ends there if anything
follows. -/
theorem exists_of_mem {part : Text} (h : part ∈ atTop p t) : ∃ a b, t = a ++ part ++ b ∧
    State.top.after a = .top ∧ Whole p part ∧ (b = [] ∨ State.top.after part = .top) := by
  induction t using atTop_induction p with
  | whole t ht hparts =>
    rw [hparts, List.mem_singleton] at h
    exact ⟨[], [], by simp [h], rfl, h ▸ ht, .inl rfl⟩
  | split u c v hu htop _ hplain hparts ih =>
    rw [hparts] at h
    rcases List.mem_cons.mp h with rfl | h
    · exact ⟨[], c :: v, rfl, rfl, hu, .inr htop⟩
    · obtain ⟨a, b, hv, ha, hwhole, hb⟩ := ih h
      refine ⟨u ++ c :: a, b, by rw [hv]; simp, ?_, hwhole, hb⟩
      rw [State.after_append, htop, State.after_cons, State.next_plain hplain, ha]

theorem infix_of_mem_atTop {part : Text} (h : part ∈ atTop p t) : part <:+: t := by
  obtain ⟨a, b, ht, -⟩ := exists_of_mem h
  exact ⟨a, b, ht.symm⟩

/-- Nothing separates in a part. -/
theorem whole_of_mem_atTop {part : Text} (h : part ∈ atTop p t) : Whole p part := by
  obtain ⟨-, -, -, -, hwhole, -⟩ := exists_of_mem h
  exact hwhole

/-- A character that does not separate is in one of the parts. -/
theorem exists_of_mem_atTop (hc : p c = false) (h : c ∈ t) : ∃ part ∈ atTop p t, c ∈ part := by
  induction t using atTop_induction p with
  | whole t _ hparts => exact ⟨t, by rw [hparts]; exact List.mem_singleton_self t, h⟩
  | split u x v _ _ hx _ hparts ih =>
    rw [hparts]
    rcases List.mem_append.mp h with h | h
    · exact ⟨u, List.mem_cons_self, h⟩
    · rcases List.mem_cons.mp h with rfl | h
      · exact absurd (hc.symm.trans hx) Bool.false_ne_true
      · obtain ⟨part, hpart, hmem⟩ := ih h
        exact ⟨part, List.mem_cons_of_mem _ hpart, hmem⟩

theorem Whole.of_append (h : Whole p (t ++ u)) : Whole p t := fun a c b hab =>
  h a c (b ++ u) (by rw [hab, List.append_assoc, List.cons_append])

/-- Where one class of characters does not separate, it does not in the parts between the
characters of another. -/
theorem Whole.of_mem_atTop {q : Char → Bool} {part : Text} (h : Whole q t)
    (hpart : part ∈ atTop p t) : Whole q part := by
  obtain ⟨a, b, rfl, ha, -, -⟩ := exists_of_mem hpart
  intro x c y hxy
  have hwhole := h (a ++ x) c (y ++ b) (by rw [hxy]; simp)
  rwa [State.after_append, ha] at hwhole

/-- A text in which no blank separates is one term. -/
theorem terms_eq_singleton (hne : t ≠ []) (h : Whole Text.isBlank t) : terms t = [t] := by
  rw [terms, atTop_eq_singleton_iff.mpr h]
  exact List.filter_eq_self.mpr fun x hx => by simpa [List.mem_singleton.mp hx] using hne

theorem mem_terms_iff {part : Text} :
    part ∈ terms t ↔ part ∈ atTop Text.isBlank t ∧ part ≠ [] := by
  simp [terms]

/-- A text without terms is blank. -/
theorem isBlank_of_terms_eq_nil (h : terms t = []) : ∀ c ∈ t, Text.isBlank c = true := by
  intro c hc
  by_contra hblank
  obtain ⟨part, hpart, hmem⟩ := exists_of_mem_atTop (Bool.eq_false_iff.mpr hblank) hc
  have hterm : part ∈ terms t := mem_terms_iff.mpr ⟨hpart, List.ne_nil_of_mem hmem⟩
  rw [h] at hterm
  exact List.not_mem_nil hterm

/-! ## Joining parts -/

/-- The parts between the occurrences of a character are joined by it. -/
theorem joinWith_atChar (sep : Char) (t : Text) : Text.joinWith [sep] (atChar sep t) = t := by
  unfold atChar
  induction t using atTop_induction (· = sep) with
  | whole t _ hparts =>
    rw [hparts]
    rfl
  | split u c v _ _ hc _ hparts ih =>
    obtain rfl : c = sep := of_decide_eq_true hc
    have hjoin := Text.joinWith_append [c] (List.cons_ne_nil u []) (parts_ne_nil (· = c) .top v)
    rw [List.singleton_append] at hjoin
    rw [hparts]
    show Text.joinWith [c] (u :: parts _ .top v) = u ++ c :: v
    rw [hjoin]
    show u ++ [c] ++ Text.joinWith [c] (atTop _ v) = u ++ c :: v
    rw [ih, List.append_assoc, List.singleton_append]

/-- A part is split no further. -/
theorem atTop_of_mem_atTop {t part : Text} (h : part ∈ atTop p t) : atTop p part = [part] :=
  atTop_eq_singleton_iff.mpr (whole_of_mem_atTop h)

/-- Where the parts of two texts are those of the texts with a character between them, that
character separates them. -/
theorem top_of_atTop_append {c : Char} (b : Text) {a : Text}
    (h : atTop p (a ++ c :: b) = atTop p a ++ atTop p b) :
    State.top.after a = .top ∧ Brackets.isPlain c = true := by
  induction a using atTop_induction p with
  | whole a _ hparts =>
    rw [hparts, List.singleton_append] at h
    -- the first part of both texts together is the first text, so it ends in front of the character
    rcases atTop_cases p (a ++ c :: b) with ⟨-, hall⟩ | ⟨u, x, v, hcut, -, htop, -, hplain, hfirst⟩
    · rw [hall] at h
      exact absurd (List.cons.inj h).1 (by simp)
    · rw [hfirst] at h
      obtain rfl : u = a := (List.cons.inj h).1
      obtain ⟨rfl, -⟩ := List.cons.inj (List.append_cancel_left hcut)
      exact ⟨htop, hplain⟩
  | split u x v hu htop hx hplain hparts ih =>
    have hfront : atTop p (u ++ x :: v ++ c :: b) = u :: atTop p (v ++ c :: b) := by
      rw [List.append_assoc, List.cons_append, atTop_append hx hplain htop,
        atTop_eq_singleton_iff.mpr hu, List.singleton_append]
    rw [hfront, hparts, List.cons_append] at h
    rw [State.after_append, htop, State.after_cons, State.next_plain hplain]
    exact ih (List.cons.inj h).2

/-- **Splitting is lossless and stable.**  The parts between the occurrences of any character are
joined to the text by it, and each of them is split into itself.  With the character between two
texts the parts of the one are followed by those of the other, if the scanner ends the first one
outside of quotes, escapes and brackets and the character is none that means something itself, and
only then. -/
theorem atChar_lossless (sep : Char) :
    (∀ t, Text.joinWith [sep] (atChar sep t) = t) ∧
    (∀ t, ∀ part ∈ atChar sep t, atChar sep part = [part]) ∧
    ∀ a b, atChar sep (a ++ sep :: b) = atChar sep a ++ atChar sep b ↔
      State.top.after a = .top ∧ Brackets.isPlain sep = true :=
  ⟨joinWith_atChar sep, fun _ _ hpart => atTop_of_mem_atTop hpart, fun _ b =>
    ⟨top_of_atTop_append b, fun h => atTop_append (decide_eq_true rfl) h.2 h.1 b⟩⟩

theorem atChar_lossless_nested :
    " rgb(1, 2, 3)".toList ∈ atChar ',' "a, rgb(1, 2, 3), 'x,y'" ∧
    atChar ',' " rgb(1, 2, 3)" = [" rgb(1, 2, 3)".toList] := by
  have hmem : " rgb(1, 2, 3)".toList ∈ atChar ',' "a, rgb(1, 2, 3), 'x,y'" := by decide
  exact ⟨hmem, (atChar_lossless ',').2.1 _ _ hmem⟩

/-! ## Balanced texts -/

/-- Every bracket and quote of the text is closed, no backslash is the last character, and no
bracket is closed that was not opened. -/
structure Balanced (t : Text) : Prop where
  ends : State.top.after t = .top
  opened : ∀ a c b, t = a ++ c :: b → Brackets.isClosing c = true → State.top.after a ≠ .top

/-- Is no bracket closed that was not opened? -/
def closesOpened : State → Text → Bool
  | _, [] => true
  | s, c :: t => !(s.isTop && Brackets.isClosing c) && closesOpened (s.next c) t

theorem closesOpened_iff : ∀ {s : State} {t : Text}, closesOpened s t = true ↔
    ∀ a c b, t = a ++ c :: b → Brackets.isClosing c = true → s.after a ≠ .top
  | s, [] => iff_of_true rfl fun a c b h => absurd h (by simp)
  | s, x :: t => by
    rw [closesOpened, Bool.and_eq_true, closesOpened_iff, Bool.not_eq_true', Bool.and_eq_false_iff]
    constructor
    · rintro ⟨hx, ht⟩ a c b h hc
      cases a with
      | nil =>
        obtain ⟨rfl, -⟩ := List.cons.inj h
        intro htop
        have htop' : s.isTop = true := State.isTop_iff.mpr htop
        rw [htop', hc] at hx
        exact hx.elim Bool.noConfusion Bool.noConfusion
      | cons y a =>
        obtain ⟨rfl, htab⟩ := List.cons.inj h
        exact ht a c b htab hc
    · intro h
      refine ⟨?_, fun a c b ht hc => h (x :: a) c b (by rw [ht]; rfl) hc⟩
      by_contra hx
      rw [not_or, Bool.not_eq_false, Bool.not_eq_false] at hx
      exact h [] x t rfl hx.2 (State.isTop_iff.mp hx.1)

instance (t : Text) : Decidable (Balanced t) :=
  decidable_of_iff (State.top.after t = .top ∧ closesOpened .top t = true)
    ⟨fun h => ⟨h.1, closesOpened_iff.mp h.2⟩, fun h => ⟨h.ends, closesOpened_iff.mpr h.opened⟩⟩

/-- What is cut off a balanced text at the top level is balanced, and so is the rest. -/
theorem Balanced.of_append (h : Balanced (t ++ u)) (ht : State.top.after t = .top) :
    Balanced t ∧ Balanced u := by
  refine ⟨⟨ht, fun a c b hab hc => ?_⟩, ⟨?_, fun a c b hab hc => ?_⟩⟩
  · exact h.opened a c (b ++ u) (by rw [hab]; simp) hc
  · have hends := h.ends
    rwa [State.after_append, ht] at hends
  · have hopened := h.opened (t ++ a) c b (by rw [hab]; simp) hc
    rwa [State.after_append, ht] at hopened

/-- Parts of a balanced text are balanced. -/
theorem Balanced.of_mem_atTop {part : Text} (h : Balanced t) (hpart : part ∈ atTop p t) :
    Balanced part := by
  obtain ⟨a, b, rfl, ha, -, hb⟩ := exists_of_mem hpart
  rw [List.append_assoc] at h
  have hback := (h.of_append ha).2
  rcases hb with rfl | htop
  · rwa [List.append_nil] at hback
  · exact (hback.of_append htop).1

/-! ## Balanced texts in brackets -/

/-- The same place, one bracket deeper. -/
def State.deeper (s : State) : State := { s with depth := s.depth + 1 }

theorem State.deeper_ne_top (s : State) : s.deeper ≠ .top := fun h =>
  Nat.succ_ne_zero s.depth (congrArg State.depth h)

theorem State.next_deeper {s : State} {c : Char} (h : (s.isTop && Brackets.isClosing c) = false) :
    s.deeper.next c = (s.next c).deeper := by
  obtain ⟨depth, quote, escaped⟩ := s
  unfold State.next State.deeper
  cases escaped with
  | true => rfl
  | false =>
    rw [if_neg Bool.false_ne_true, if_neg Bool.false_ne_true]
    by_cases hescape : c = '\x5c'
    · rw [if_pos hescape, if_pos hescape]
    rw [if_neg hescape, if_neg hescape]
    cases quote with
    | some q =>
      dsimp only
      split <;> rfl
    | none =>
      dsimp only
      split
      · rfl
      split
      · rfl
      split
      · -- what is closed here has been opened in the text
        have hdepth : depth ≠ 0 := by
          rintro rfl
          simp_all [State.isTop]
        show (⟨depth + 1 - 1, none, false⟩ : State) = ⟨depth - 1 + 1, none, false⟩
        rw [Nat.add_sub_cancel, Nat.sub_add_cancel (Nat.pos_of_ne_zero hdepth)]
      · rfl

/-- As long as no bracket is closed that was not opened, a text is read alike one bracket deeper. -/
theorem State.after_deeper : ∀ {s : State} {t : Text}, closesOpened s t = true →
    s.deeper.after t = (s.after t).deeper
  | _, [], _ => rfl
  | s, c :: t, h => by
    rw [closesOpened, Bool.and_eq_true, Bool.not_eq_true'] at h
    rw [State.after_cons, State.after_cons, State.next_deeper h.1, State.after_deeper h.2]

theorem closesOpened_of_append {s : State} {t u : Text} (h : closesOpened s (t ++ u) = true) :
    closesOpened s t = true :=
  closesOpened_iff.mpr fun a c b hab hc =>
    closesOpened_iff.mp h a c (b ++ u) (by rw [hab, List.append_assoc, List.cons_append]) hc

/-- Nothing separates in a balanced text in parentheses, or in front of it if nothing separates
there and nothing is opened. -/
theorem Balanced.whole_parens {p : Char → Bool} {front t : Text} (h : Balanced t)
    (hfront : ∀ c ∈ front, Brackets.isPlain c = true ∧ p c = false) :
    Whole p (front ++ '(' :: (t ++ [')'])) := by
  intro a c b hab
  refine Bool.eq_false_iff.mpr fun hsplits => ?_
  obtain ⟨htop, hp, hplain⟩ := State.splitsAt_iff.mp hsplits
  rcases Text.append_eq_append_cons hab with ⟨v, hv, -⟩ | ⟨v, rfl, hv⟩
  · have hc := (hfront c (by rw [hv]; simp)).2
    exact Bool.false_ne_true (hc.symm.trans hp)
  · cases v with
    | nil =>
      obtain ⟨rfl, -⟩ := List.cons.inj hv
      exact absurd hplain (by decide)
    | cons x v =>
      obtain ⟨rfl, hrest⟩ := List.cons.inj hv
      have hafter : State.top.after front = .top := State.after_plain fun c hc => (hfront c hc).1
      have hopen : State.top.next '(' = State.top.deeper := rfl
      rcases Text.append_eq_append_cons hrest with ⟨w, hw, -⟩ | ⟨w, -, hw⟩
      · -- inside of the parentheses the state is one bracket deeper than it is in the text
        have hopened := closesOpened_iff.mpr h.opened
        rw [hw] at hopened
        rw [State.after_append, hafter, State.after_cons, hopen,
          State.after_deeper (closesOpened_of_append hopened)] at htop
        exact State.deeper_ne_top _ htop
      · cases w with
        | nil =>
          obtain ⟨rfl, -⟩ := List.cons.inj hw
          exact absurd hplain (by decide)
        | cons y w => exact absurd (List.cons.inj hw).2 (by simp)

/-- How the scanner for brackets reads in this state. -/
def State.mode (s : State) : Brackets.Mode :=
  match s.quote with
  | none => .code
  | some quote => .quoted quote

/-- A backslash takes the next character with it. -/
theorem reach_escape (s : State) (depth : Nat) (url : Option Nat) (before : Text) (x : Char)
    (t : Text) : Brackets.reach s.mode depth url before ('\x5c' :: x :: t) =
      (Brackets.reach s.mode depth url (x :: '\x5c' :: before) t).map (· + 2) := by
  unfold State.mode
  split
  · exact (Brackets.Step.escape x).reach_eq
  · exact (Brackets.Step.quotedEscape x).reach_eq

/-- Only a backslash keeps the next character from its meaning. -/
theorem next_escaped {s : State} {c : Char} (hescaped : s.escaped = false) (hescape : c ≠ '\x5c') :
    (s.next c).escaped = false := by
  unfold State.next
  rw [if_neg (by rw [hescaped]; exact Bool.false_ne_true), if_neg hescape]
  split
  · split
    · rfl
    · exact hescaped
  · split
    · rfl
    split
    · rfl
    split
    · rfl
    · exact hescaped

/-- In a quote the scanner looks for its end. -/
theorem reach_next_quoted {depth : Nat} {quote c : Char} {t : Text} (hescape : c ≠ '\x5c')
    (url : Option Nat) (before : Text) :
    let s : State := ⟨depth, some quote, false⟩
    Brackets.reach s.mode (depth + 1) url before (c :: t) =
      (Brackets.reach (s.next c).mode ((s.next c).depth + 1) url (c :: before) t).map (· + 1) := by
  intro s
  have hread : Brackets.reach (.quoted quote) (depth + 1) url before (c :: t) =
      (Brackets.reach (if c = quote then .code else .quoted quote) (depth + 1) url
        (c :: before) t).map (· + 1) := (Brackets.Step.quoted fun h => absurd h hescape).reach_eq
  show Brackets.reach (.quoted quote) (depth + 1) url before (c :: t) = _
  rw [hread]
  by_cases hquote : c = quote
  · have hnext : s.next c = ⟨depth, none, false⟩ := by
      have hne : quote ≠ '\x5c' := fun h => hescape (hquote.trans h)
      simp [s, State.next, hquote, hne]
    rw [if_pos hquote, hnext]
    rfl
  · have hnext : s.next c = s := by
      simp [s, State.next, hescape, hquote]
    rw [if_neg hquote, hnext]
    rfl

/-- The scanner follows the state from character to character, one bracket deeper. -/
theorem exists_reach_next {s : State} {c : Char} {t : Text} (hescaped : s.escaped = false)
    (hescape : c ≠ '\x5c') (hopened : (s.isTop && Brackets.isClosing c) = false)
    {url : Option Nat} (hsingle : Brackets.Single url c t) (before : Text) :
    ∃ url', Brackets.reach s.mode (s.depth + 1) url before (c :: t) =
      (Brackets.reach (s.next c).mode ((s.next c).depth + 1) url' (c :: before) t).map (· + 1) := by
  obtain ⟨depth, quote, escaped⟩ := s
  obtain rfl : escaped = false := hescaped
  cases quote with
  | some quote => exact ⟨url, reach_next_quoted hescape url before⟩
  | none =>
    show ∃ url', Brackets.reach .code (depth + 1) url before (c :: t) = _
    rw [Brackets.reach_code hsingle]
    split
    next hquote =>
      have hnext : (⟨depth, none, false⟩ : State).next c = ⟨depth, some c, false⟩ := by
        simp [State.next, hescape, hquote]
      exact ⟨url, by rw [hnext]; rfl⟩
    split
    next hquote hopen =>
      have hnext : (⟨depth, none, false⟩ : State).next c = ⟨depth + 1, none, false⟩ := by
        simp [State.next, hescape, hquote, hopen]
      exact ⟨_, by rw [hnext]; rfl⟩
    split
    next hquote hopen hclose =>
      have hnext : (⟨depth, none, false⟩ : State).next c = ⟨depth - 1, none, false⟩ := by
        simp [State.next, hescape, hquote, hopen, hclose]
      -- what is closed here has been opened in the text
      have hdepth : depth ≠ 0 := by
        rintro rfl
        simp [State.isTop, hclose] at hopened
      obtain ⟨depth, rfl⟩ := Nat.exists_eq_succ_of_ne_zero hdepth
      exact ⟨_, by rw [hnext, if_neg (by omega)]; rfl⟩
    next hquote hopen hclose =>
      have hnext : (⟨depth, none, false⟩ : State).next c = ⟨depth, none, false⟩ := by
        simp [State.next, hescape, hquote, hopen, hclose]
      exact ⟨url, by rw [hnext]; rfl⟩

/-- One bracket more than those that are open here is closed by the parenthesis behind a text that
closes them, unless something in the text begins a comment. -/
theorem reach_of_closesOpened {s : State} {t : Text} (hescaped : s.escaped = false)
    (hends : s.after t = .top) (hopened : closesOpened s t = true) (hcomment : Brackets.NoComment t)
    (url : Option Nat) (before : Text) :
    Brackets.reach s.mode (s.depth + 1) url before (t ++ [')']) = some (t.length + 1) := by
  induction hlength : t.length using Nat.strongRecOn generalizing s t url before with
  | _ n ih =>
    subst hlength
    cases t with
    | nil =>
      obtain rfl : s = .top := hends
      exact (Brackets.reach_closing (by decide) before []).trans (if_pos (by decide))
    | cons c t =>
      have hrest : Brackets.NoComment t := hcomment.of_infix (List.suffix_cons c t).isInfix
      rw [closesOpened, Bool.and_eq_true, Bool.not_eq_true'] at hopened
      rw [State.after_cons] at hends
      by_cases hescape : c = '\x5c'
      · subst hescape
        have hnext : s.next '\x5c' = ⟨s.depth, s.quote, true⟩ := by simp [State.next, hescaped]
        rw [hnext] at hends hopened
        cases t with
        | nil => exact absurd (State.mk.inj hends).2.2 (by decide)
        | cons x t =>
          have hback : (⟨s.depth, s.quote, true⟩ : State).next x = s := by
            simp [State.next, ← hescaped]
          rw [State.after_cons, hback] at hends
          rw [closesOpened, hback, Bool.and_eq_true] at hopened
          rw [List.cons_append, List.cons_append, reach_escape,
            ih t.length (by simp only [List.length_cons]; omega) hescaped hends hopened.2.2
              (hrest.of_infix (List.suffix_cons x t).isInfix) url _ rfl]
          rfl
      · have hsingle : Brackets.Single url c (t ++ [')']) := by
          cases t with
          | nil =>
            refine ⟨fun h => absurd h hescape, fun _ _ x u htail => ?_⟩
            rw [← (List.cons.inj htail).1]
            decide
          | cons y t => exact (Brackets.Single.of_noComment hescape hcomment).append [')']
        obtain ⟨url', hstep⟩ := exists_reach_next hescaped hescape hopened.1 hsingle before
        have hplain : (s.next c).escaped = false := next_escaped hescaped hescape
        rw [List.cons_append, hstep, ih t.length (Nat.lt_succ_self _) hplain hends hopened.2 hrest
          url' _ rfl]
        rfl

/-- The parenthesis behind a balanced text without comments closes the one in front of it. -/
theorem Balanced.reach {t : Text} (h : Balanced t) (hcomment : Brackets.NoComment t)
    (before : Text) :
    Brackets.reach .code 0 none before ('(' :: (t ++ [')'])) = some (t.length + 2) := by
  rw [Brackets.reach_opening (by decide)]
  exact congrArg (Option.map (· + 1)) (reach_of_closesOpened (s := .top) rfl h.ends
    (closesOpened_iff.mpr h.opened) hcomment _ ('(' :: before))

end Split
end UtilityCss
