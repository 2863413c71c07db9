import UtilityCss.Proofs.ClassList.Behind
import UtilityCss.Proofs.ClassList.RoundTrip
import UtilityCss.Proofs.Evaluation.Precedence

/-!
# Names with modifiers

A modifier may stand behind a plain name, of which it is then the end, and behind the bracket of a
value.  Alone in a class list both are read as one utility with that modifier, if what is written
can be the text of a modifier at all: a run of characters of names without slashes, or what a pair
of brackets closes around.
-/

namespace UtilityCss

namespace ModifierText

/-- What is written for a modifier, nothing if there is none. -/
def suffix : Option ModifierText → Text
  | none => []
  | some m => '/' :: if m.wrapped then '[' :: (m.text ++ [']']) else m.text

/-- The text is one of a modifier. -/
def Writable (sep : Separator) (m : ModifierText) : Prop :=
  if m.wrapped then Brackets.Sealed false m.text
  else ClassList.IsName sep m.text ∧ '/' ∉ m.text

instance (sep : Separator) (m : ModifierText) : Decidable (m.Writable sep) :=
  inferInstanceAs (Decidable (ite _ _ _))

theorem spells_suffix : ∀ m : Option ModifierText, Spells (suffix m) m
  | none => rfl
  | some _ => ⟨']', by decide, rfl⟩

end ModifierText

namespace ClassList

open ModifierText (suffix)

variable {sep : Separator} {name text : Text}

/-- A head that reaches to the end of its source is read as its utility. -/
theorem read_of_head {t : Text} {head : Head} {d : Cursor}
    (h : Head.read? sep (.atStart t) = some (head, d)) (hd : d.rest = []) :
    (read sep t).exprs = [.utility ⟨0, t⟩ head false] := by
  obtain ⟨ch, u, hp, hch, -⟩ := Head.read?_laid h
  have ht : t = ch :: u := by
    have hrest := hp.rest_eq
    rwa [hd, List.append_nil] at hrest
  have hbang : takeBang d = (false, d) := by
    rw [takeBang, Cursor.isAt, hd]
    rfl
  have hreads : Reads sep false (.atStart t) _ _ :=
    .utility (marks_false _) h (by rw [hd, sep.startsIn_nil]; rfl)
  rw [hbang, hp.upTo, ← ht] at hreads
  refine hreads.read_eq hd ?_
  have hskip := Cursor.passes_skipBlanks_of_append (c := .atStart t) (List.nil_append _).symm
    (by simp) fun x v hx => by
      obtain rfl := (List.cons.inj (ht.symm.trans hx)).1
      exact (isNameChar_iff.mp hch).1
  exact hskip.1.eq_of_nil

/-! ## Names that go on behind a slash -/

/-- A run goes over characters of its class without a separator, and on behind them. -/
theorem runLength_add {p : Char → Bool} {r : Text} : ∀ {u : Text}, (∀ x ∈ u, p x = true) →
    sep.Clear u r → runLength p sep (u ++ r) = u.length + runLength p sep r
  | [], _, _ => (Nat.zero_add _).symm
  | x :: u, hu, hclear => by
    obtain ⟨hx, hrest⟩ := List.forall_mem_cons.mp hu
    have hstarts := hclear [] (x :: u) rfl (List.cons_ne_nil _ _)
    rw [List.cons_append] at hstarts ⊢
    rw [runLength, hx, hstarts, Bool.not_false, Bool.and_true, if_pos rfl,
      runLength_add hrest (Separator.Clear.right (t := [x]) hclear), List.length_cons]
    omega

/-- The characters are those of names, no slash is among them, and no separator. -/
structure IsCore (sep : Separator) (name : Text) : Prop where
  ne_nil : name ≠ []
  isNameChar : ∀ c ∈ name, isNameChar c = true
  slash : '/' ∉ name
  separator : Text.includes name sep.text = false

instance (sep : Separator) (name : Text) : Decidable (IsCore sep name) :=
  decidable_of_iff (name ≠ [] ∧ (∀ c ∈ name, ClassList.isNameChar c = true) ∧ '/' ∉ name ∧
    Text.includes name sep.text = false)
    ⟨fun ⟨hne, hname, hslash, hsep⟩ => ⟨hne, hname, hslash, hsep⟩,
      fun h => ⟨h.ne_nil, h.isNameChar, h.slash, h.separator⟩⟩

namespace IsCore

theorem clear (h : IsCore sep name) {c : Char} (hc : separates c = false) (r : Text) :
    sep.Clear name (c :: r) :=
  .of_includes h.separator fun _ _ hx => (List.cons.inj hx).1 ▸ hc

theorem isName (h : IsCore sep name) : IsName sep name where
  ne_nil := h.ne_nil
  length := by
    have hlength := nameLength_append (r := []) h.isNameChar
      (.of_includes h.separator (fun _ _ h => by cases h)) (fun _ _ h => by cases h)
    rwa [List.append_nil] at hlength

/-- Behind the name and a slash the run goes on. -/
theorem nameLength_slash (h : IsCore sep name) (r : Text) :
    nameLength sep (name ++ '/' :: r) = name.length + (nameLength sep r + 1) := by
  have hslash : sep.startsIn ('/' :: r) = false := sep.startsIn_cons (by decide)
  rw [nameLength_eq, runLength_add h.isNameChar (h.clear (by decide) r), ← nameLength_eq,
    nameLength, hslash]
  rfl

theorem isName_slash (h : IsCore sep name) (ht : IsName sep text) :
    IsName sep (name ++ '/' :: text) where
  ne_nil := List.append_ne_nil_of_left_ne_nil h.ne_nil _
  length := by
    rw [h.nameLength_slash, ht.length, List.length_append, List.length_cons]

theorem ownModifier?_eq_none (h : IsCore sep name) (start : Nat) :
    Head.ownModifier? ⟨start, name⟩ = none := by
  unfold Head.ownModifier?
  cases hcut : Text.cutAtLast? (· = '/') name with
  | none => rfl
  | some p =>
    obtain ⟨c, hc, -, heq⟩ := Text.cutAtLast?_eq_some_iff.mp hcut
    refine absurd ?_ h.slash
    rw [heq, ← of_decide_eq_true hc]
    exact List.mem_append_right _ List.mem_cons_self

end IsCore

/-- What follows the last slash is the modifier. -/
theorem Head.ownModifier?_slash (name : Text) (hne : text ≠ []) (hslash : '/' ∉ text) :
    ∃ m : Modifier, Head.ownModifier? ⟨0, name ++ '/' :: text⟩ = some m ∧ m.closed = true ∧
      m.written = ⟨text, false⟩ := by
  have hcut : Text.cutAtLast? (· = '/') (name ++ '/' :: text) = some (name, text) :=
    Text.cutAtLast?_eq_some_iff.mpr ⟨'/', rfl, fun c hc => decide_eq_false (by
      rintro rfl
      exact hslash hc), rfl⟩
  obtain ⟨c, t, rfl⟩ := List.exists_cons_of_ne_nil hne
  unfold Head.ownModifier?
  rw [hcut]
  refine ⟨_, rfl, rfl, ?_⟩
  show (⟨(name ++ '/' :: c :: t).drop (name.length + 1), false⟩ : ModifierText) = _
  rw [List.append_cons, List.drop_left' (by simp)]

theorem modifierLength_eq_length : ∀ {t : Text}, '/' ∉ t → nameLength sep t = t.length →
    modifierLength sep t = t.length
  | [], _, _ => rfl
  | c :: t, hslash, hlength => by
    obtain ⟨hc, ht⟩ : '/' ≠ c ∧ '/' ∉ t := by rwa [List.mem_cons, not_or] at hslash
    have hne : (c != '/') = true := bne_iff_ne.mpr (Ne.symm hc)
    rw [nameLength] at hlength
    split at hlength
    · rename_i hname
      rw [Bool.and_eq_true] at hname
      rw [modifierLength, hname.1, hname.2, hne,
        modifierLength_eq_length ht (Nat.succ.inj hlength)]
      rfl
    · cases hlength

/-! ## The two places of a modifier -/

/-- Behind a plain name. -/
theorem Head.exists_read?_plain (hname : IsCore sep name) {m : Option ModifierText}
    (hm : ∀ x ∈ m, x.Writable sep) : ∃ own d,
      Head.read? sep (.atStart (name ++ suffix m)) =
        some (.plain ⟨0, name ++ suffix m⟩ own, d) ∧ d.rest = [] ∧
      own.map Modifier.written = m ∧ (Head.plain ⟨0, name ++ suffix m⟩ own).closed = true := by
  -- a name to the end of the source
  have toEnd : ∀ {u : Text}, IsName sep u →
      Head.read? sep (.atStart u) = some (plainHead 0 u, (Cursor.atStart u).advance u.length) ∧
        ((Cursor.atStart u).advance u.length).rest = [] := by
    intro u hu
    have hend : ((Cursor.atStart u).advance u.length).rest = [] := List.drop_length
    refine ⟨Head.read?_plain (c := .atStart u)
      (.of_length (List.append_nil u).symm hu.ne_nil hu.length) ?_,
      hend⟩
    rw [Cursor.isAt, hend]
    rfl
  cases m with
  | none =>
    obtain ⟨hread, hend⟩ := toEnd hname.isName
    rw [suffix, List.append_nil]
    exact ⟨_, _, hread, hend, by rw [hname.ownModifier?_eq_none]; rfl, closed_plainHead 0 name⟩
  | some m =>
    obtain ⟨text, wrapped⟩ := m
    have htext : ModifierText.Writable sep ⟨text, wrapped⟩ := hm _ rfl
    cases wrapped with
    | false =>
      obtain ⟨hisName, hslash⟩ : IsName sep text ∧ '/' ∉ text := htext
      obtain ⟨hread, hend⟩ := toEnd (hname.isName_slash hisName)
      obtain ⟨own, hown, -, hwritten⟩ := Head.ownModifier?_slash name hisName.ne_nil hslash
      refine ⟨_, _, hread, hend, ?_, closed_plainHead 0 _⟩
      rw [hown]
      exact congrArg some hwritten
    | true =>
      have hsealed : Brackets.Sealed false text := htext
      let c : Cursor := .atStart (name ++ '/' :: '[' :: (text ++ [']']))
      have hc : c.rest = (name ++ ['/']) ++ '[' :: (text ++ ']' :: []) := List.append_cons ..
      have hlength : nameLength sep c.rest = (name ++ ['/']).length := by
        have hstop : nameLength sep ('[' :: (text ++ [']'])) = 0 := by
          rw [nameLength]
          rfl
        show nameLength sep (name ++ '/' :: '[' :: _) = _
        rw [hname.nameLength_slash, hstop, List.length_append]
        rfl
      obtain ⟨s, d, hs, -, hend, hread⟩ := read?_slash hsealed hc hlength
      rw [Cursor.upTo, hend, List.length_nil, Nat.sub_zero, Cursor.ahead, List.take_length]
        at hread
      refine ⟨_, _, hread, hend, ?_, rfl⟩
      rw [Option.map_some, Modifier.written, hs]

/-- At the end of the source, behind a bracket. -/
theorem Head.exists_trailing? {c : Cursor} {m : Option ModifierText} (hc : c.rest = suffix m)
    (hm : ∀ x ∈ m, x.Writable sep) : ∃ own d,
      (match Head.trailing? sep c with
        | some (found, after) => (some found, after)
        | none => (none, c)) = (own, d) ∧ d.rest = [] ∧
      own.map Modifier.written = m ∧ own.all Modifier.closed = true := by
  cases m with
  | none =>
    have hnil : c.rest = [] := hc
    rw [Head.trailing?_none (by rw [hnil]; exact fun _ h => by cases h)]
    exact ⟨none, c, rfl, hnil, rfl, rfl⟩
  | some m =>
    obtain ⟨text, wrapped⟩ := m
    have htext : ModifierText.Writable sep ⟨text, wrapped⟩ := hm _ rfl
    cases wrapped with
    | false =>
      obtain ⟨hisName, hslash⟩ : IsName sep text ∧ '/' ∉ text := htext
      have hrest : c.rest = '/' :: text := hc
      have hne : text.length ≠ 0 := mt List.length_eq_zero_iff.mp hisName.ne_nil
      have hopen : ∀ r, text ≠ '[' :: r := fun r hr =>
        absurd (hisName.isNameChar hr) (by decide)
      rw [Head.trailing?_plain hrest hopen, modifierLength_eq_length hslash hisName.length,
        if_neg hne]
      refine ⟨_, _, rfl, ?_, ?_, rfl⟩
      · rw [Cursor.rest_advance, hrest, List.drop_succ_cons, List.drop_length]
      · rw [Option.map_some, Modifier.written, Cursor.ahead, Cursor.rest_advance, hrest]
        show some (⟨text.take text.length, false⟩ : ModifierText) = _
        rw [List.take_length]
    | true =>
      have hsealed : Brackets.Sealed false text := htext
      have hrest : c.rest = '/' :: '[' :: (text ++ [']']) := hc
      have hbracket : (c.advance 1).rest = '[' :: (text ++ ']' :: []) := by
        rw [Cursor.rest_advance, hrest]
        rfl
      obtain ⟨hclosed, hinner, -, hend⟩ := passes_sealed hsealed hbracket
      rw [Head.trailing?_boxed sep hrest, hclosed]
      refine ⟨_, _, rfl, hend, ?_, rfl⟩
      rw [Option.map_some, Modifier.written, hinner]

/-- Behind a bracketed value. -/
theorem Head.exists_read?_bracketed (hname : IsCore sep name) {value : Text}
    (hvalue : Brackets.Sealed false value) {m : Option ModifierText}
    (hm : ∀ x ∈ m, x.Writable sep) : ∃ inner own d,
      Head.read? sep (.atStart (name ++ '-' :: '[' :: (value ++ ']' :: suffix m))) =
        some (.bracketed ⟨0, name⟩ inner own true, d) ∧ d.rest = [] ∧ inner.text = value ∧
      own.map Modifier.written = m ∧ (Head.bracketed ⟨0, name⟩ inner own true).closed = true := by
  let c : Cursor := .atStart (name ++ '-' :: '[' :: (value ++ ']' :: suffix m))
  have hc : c.rest = (name ++ ['-']) ++ '[' :: (value ++ ']' :: suffix m) := List.append_cons ..
  have hlength : nameLength sep c.rest = (name ++ ['-']).length := by
    have hhyphen : sep.startsIn ('-' :: '[' :: (value ++ ']' :: suffix m)) = false :=
      sep.startsIn_cons (by decide)
    have hstop : nameLength sep ('[' :: (value ++ ']' :: suffix m)) = 0 := by
      rw [nameLength]
      rfl
    show nameLength sep (name ++ '-' :: '[' :: _) = _
    rw [nameLength_eq, runLength_add hname.isNameChar (hname.clear (by decide) _),
      ← nameLength_eq, nameLength, hhyphen, hstop, List.length_append]
    rfl
  obtain ⟨s, e, hs, -, hend, hread⟩ := read?_hyphen hvalue hc hlength
  obtain ⟨own, d, htrailing, hd, hown, hownclosed⟩ := Head.exists_trailing? hend hm
  refine ⟨s, own, d, ?_, hd, hs, hown, ?_⟩
  · rw [hread]
    cases htrail : Head.trailing? sep e with
    | none =>
      rw [htrail] at htrailing
      obtain ⟨rfl, rfl⟩ := Prod.mk.inj htrailing
      rfl
    | some found =>
      rw [htrail] at htrailing
      obtain ⟨rfl, rfl⟩ := Prod.mk.inj htrailing
      rfl
  · rw [Head.closed, Head.modifier, hownclosed]
    rfl

end ClassList
end UtilityCss
