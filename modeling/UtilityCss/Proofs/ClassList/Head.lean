import UtilityCss.ClassList.Parser
import UtilityCss.Proofs.Brackets

/-!
# Names and what belongs to them

A head is read off the source in one piece.  `Head.Laid` says how a head lies in the
text it was read from: where its name, its value and its modifier stand, and that
together with the characters between them they are the whole text.  It is stated
for a text at an offset, without a cursor, so that the same statement serves for
every place in a class list.

Both a name and a modifier end at the first character that cannot be part of them
or starts the separator.  The two measures differ only in the class of characters,
so `runLength` stands for both.
-/

namespace UtilityCss
namespace ClassList

/-! ## Runs of characters -/

/-- The number of characters of the class at the beginning of a text, up to the
separator. -/
def runLength (p : Char → Bool) (sep : Separator) : Text → Nat
  | [] => 0
  | c :: t => if p c && !sep.startsIn (c :: t) then runLength p sep t + 1 else 0

theorem nameLength_eq (sep : Separator) : ∀ t : Text,
    nameLength sep t = runLength isNameChar sep t
  | [] => rfl
  | c :: t => by rw [nameLength, runLength, nameLength_eq sep t]

/-- May the character be part of a plain modifier? -/
def isModifierChar (c : Char) : Bool := isNameChar c && c != '/'

theorem modifierLength_eq (sep : Separator) : ∀ t : Text,
    modifierLength sep t = runLength isModifierChar sep t
  | [] => rfl
  | c :: t => by rw [modifierLength, runLength, modifierLength_eq sep t]; rfl

/-- A run splits the text and holds characters of the class only. -/
theorem exists_run (p : Char → Bool) (sep : Separator) : ∀ t : Text,
    ∃ u r, t = u ++ r ∧ u.length = runLength p sep t ∧ ∀ x ∈ u, p x = true
  | [] => ⟨[], [], rfl, rfl, by simp⟩
  | c :: t => by
    rw [runLength]
    split
    next h =>
      obtain ⟨u, r, rfl, hlen, hu⟩ := exists_run p sep t
      have hc : p c = true := (Bool.and_eq_true_iff.mp h).1
      refine ⟨c :: u, r, rfl, by rw [List.length_cons, hlen], ?_⟩
      intro x hx
      rcases List.mem_cons.mp hx with rfl | hx
      · exact hc
      · exact hu x hx
    next => exact ⟨[], c :: t, rfl, rfl, by simp⟩

/-- A run reaches as far as the characters are of the class and none of them starts the
separator. -/
theorem runLength_append {p : Char → Bool} {sep : Separator} {r : Text} :
    ∀ u : Text, (∀ x ∈ u, p x = true) →
      (∀ a b, u = a ++ b → b ≠ [] → sep.startsIn (b ++ r) = false) →
      (∀ x v, r = x :: v → p x = false ∨ sep.startsIn r = true) →
      runLength p sep (u ++ r) = u.length
  | [], _, _, hend => by
    cases r with
    | nil => rfl
    | cons x v =>
      rw [List.nil_append, runLength]
      rcases hend x v rfl with hx | hx <;> simp [hx]
  | c :: u, hu, hsep, hend => by
    have hc : p c = true := hu c (List.mem_cons_self ..)
    have hs : sep.startsIn (c :: (u ++ r)) = false := by
      have := hsep [] (c :: u) rfl (List.cons_ne_nil _ _)
      rwa [List.cons_append] at this
    have ih : runLength p sep (u ++ r) = u.length := runLength_append u
      (fun x hx => hu x (List.mem_cons_of_mem _ hx))
      (fun a b hab hb => hsep (c :: a) b (by rw [hab, List.cons_append]) hb) hend
    rw [List.cons_append, runLength, hc, hs, ih]
    rfl

theorem isNameChar_iff {c : Char} :
    isNameChar c = true ↔ Text.isBlank c = false ∧ Brackets.isOpening c = false ∧
      Brackets.isClosing c = false ∧ c ≠ '!' := by
  simp [isNameChar, and_assoc]

/-! ## How a head lies in its text -/

/-- The modifier is the text `t` at the offset `start`, from its slash on. -/
def Modifier.Laid (m : Modifier) (start : Nat) (t after : Text) : Prop :=
  (m.wrapped = true ∧
    ∃ u, t = '/' :: u ∧ Brackets.Boxed '[' m.slice m.closed (start + 1) u after) ∨
  (m.wrapped = false ∧ m.closed = true ∧ m.slice.start = start + 1 ∧ t = '/' :: m.slice.text)

/-- An absent modifier takes up nothing. -/
def ModifierLaid (m : Option Modifier) (start : Nat) (t after : Text) : Prop :=
  match m with
  | none => t = []
  | some m => m.Laid start t after

namespace Head

/-- The head is the text `t` at the offset `start`, with `after` behind it. -/
def Laid (start : Nat) (t after : Text) : Head → Prop
  | plain name modifier =>
    name = ⟨start, t⟩ ∧
      ∃ core u, t = core ++ u ∧ ModifierLaid modifier (start + Text.bytes core) u after
  | bracketed lead value modifier closed =>
    lead.start = start ∧ ∃ hyphen box u,
      (hyphen = [] ∨ hyphen = ['-']) ∧ t = lead.text ++ hyphen ++ box ++ u ∧
        Brackets.Boxed '[' value closed (start + Text.bytes (lead.text ++ hyphen)) box
          (u ++ after) ∧
        ModifierLaid modifier (start + Text.bytes (lead.text ++ hyphen ++ box)) u after

/-- The modifier of a plain name lies at its end. -/
theorem ownModifier?_laid (start : Nat) (t after : Text) :
    ∃ core u, t = core ++ u ∧
      ModifierLaid (ownModifier? ⟨start, t⟩) (start + Text.bytes core) u after := by
  unfold ownModifier?
  split
  next => exact ⟨t, [], by simp, rfl⟩
  next core last _ hcut =>
    obtain ⟨ch, hch, -, ht⟩ := Text.cutAtLast?_eq_some_iff.mp hcut
    obtain rfl : ch = '/' := by simpa using hch
    simp only at ht
    have hcore : (core ++ ['/']).length = core.length + 1 := by simp
    have hsplit : t = (core ++ ['/']) ++ last := by rw [ht]; simp
    have htake : t.take (core.length + 1) = core ++ ['/'] := by
      rw [hsplit, List.take_left' hcore]
    have hdrop : t.drop (core.length + 1) = last := by rw [hsplit, List.drop_left' hcore]
    refine ⟨core, '/' :: last, ht, Or.inr ⟨rfl, rfl, ?_, ?_⟩⟩
    · show start + Text.bytes (t.take (core.length + 1)) = start + Text.bytes core + 1
      rw [htake, Text.bytes_append]
      rfl
    · show '/' :: last = '/' :: t.drop (core.length + 1)
      rw [hdrop]
  next => exact ⟨t, [], by simp, rfl⟩

/-- The modifier behind a bracketed value. -/
theorem trailing?_laid {sep : Separator} {c d : Cursor} {m : Modifier}
    (h : trailing? sep c = some (m, d)) :
    ∃ t, c.Passes t d ∧ m.Laid c.offset t d.rest := by
  unfold trailing? at h
  split at h
  next r hrest =>
    -- the bracket stands behind the slash
    have hslash : c.Passes ['/'] (c.advance 1) := Cursor.passes_advance_of_append hrest
    have hbracket : (c.advance 1).rest = '[' :: r := by rw [Cursor.rest_advance, hrest]; rfl
    obtain ⟨u, hu, -, hboxed⟩ := Brackets.boxed_closing (by decide) hbracket
    obtain ⟨rfl, rfl⟩ := Prod.mk.inj (Option.some.inj h)
    have hoffset : (c.advance 1).offset = c.offset + 1 := hslash.offset
    rw [hoffset] at hboxed
    exact ⟨['/'] ++ u, hslash.trans hu, Or.inl ⟨rfl, u, rfl, hboxed⟩⟩
  next r _ hrest =>
    have hslash : c.Passes ['/'] (c.advance 1) := Cursor.passes_advance_of_append hrest
    have hbehind : (c.advance 1).rest = r := by rw [Cursor.rest_advance, hrest]; rfl
    cases hlen : modifierLength sep r with
    | zero =>
      rw [hlen] at h
      exact absurd h (by simp)
    | succ k =>
      rw [hlen] at h
      obtain ⟨u, v, rfl, hu, -⟩ := exists_run isModifierChar sep r
      rw [← modifierLength_eq, hlen] at hu
      obtain ⟨rfl, rfl⟩ := Prod.mk.inj (Option.some.inj h)
      have hp : c.Passes ('/' :: u) (c.advance (k + 1 + 1)) := by
        have hp := Cursor.passes_advance_of_append (t := '/' :: u) (r := v) hrest
        rwa [List.length_cons, hu] at hp
      have hahead : (c.advance 1).ahead (k + 1) = ⟨c.offset + 1, u⟩ := by
        have hoffset : (c.advance 1).offset = c.offset + 1 := hslash.offset
        rw [← hu, Cursor.ahead_of_append hbehind, hoffset]
      refine ⟨'/' :: u, hp, Or.inr ⟨rfl, rfl, ?_, ?_⟩⟩
      · rw [hahead]
      · rw [hahead]
  next => exact absurd h (by simp)

/-! ## What is read for a head -/

/-- The name that is read at a place, and what is behind it. -/
structure Named (sep : Separator) (c : Cursor) (u r : Text) : Prop where
  rest_eq : c.rest = u ++ r
  ne_nil : u ≠ []
  length : nameLength sep c.rest = u.length
  chars : ∀ x ∈ u, isNameChar x = true

theorem exists_named {sep : Separator} {c : Cursor} (h : nameLength sep c.rest ≠ 0) :
    ∃ u r, Named sep c u r := by
  obtain ⟨u, r, hc, hlen, hname⟩ := exists_run isNameChar sep c.rest
  rw [← nameLength_eq] at hlen
  refine ⟨u, r, hc, ?_, hlen.symm, hname⟩
  rintro rfl
  exact h hlen.symm

section

variable {sep : Separator} {c d : Cursor} {u r : Text}

namespace Named

theorem unique {u' r' : Text} (h : Named sep c u r) (h' : Named sep c u' r') :
    u = u' ∧ r = r' :=
  List.append_inj (h.rest_eq.symm.trans h'.rest_eq) (h.length.symm.trans h'.length)

theorem of_length (hc : c.rest = u ++ r) (hu : u ≠ [])
    (hlen : nameLength sep c.rest = u.length) : Named sep c u r := by
  obtain ⟨v, w, h⟩ : ∃ v w, Named sep c v w :=
    exists_named (by rw [hlen]; exact mt List.length_eq_zero_iff.mp hu)
  obtain ⟨rfl, -⟩ := List.append_inj (hc.symm.trans h.rest_eq) (hlen.symm.trans h.length)
  exact ⟨hc, hu, hlen, h.chars⟩

theorem passes (h : Named sep c u r) : c.Passes u (c.advance u.length) :=
  Cursor.passes_advance_of_append h.rest_eq

theorem rest_advance (h : Named sep c u r) : (c.advance u.length).rest = r :=
  Cursor.rest_advance_of_append h.rest_eq

end Named

/-- A name without a bracket. -/
theorem read?_plain (h : Named sep c u r) (hat : (c.advance u.length).isAt '[' = false) :
    read? sep c =
      some (plain ⟨c.offset, u⟩ (ownModifier? ⟨c.offset, u⟩), c.advance u.length) := by
  obtain ⟨hc, hu, hlen, -⟩ := h
  obtain ⟨x, u', rfl⟩ := List.exists_cons_of_ne_nil hu
  have hahead : c.ahead (u'.length + 1) = ⟨c.offset, x :: u'⟩ := Cursor.ahead_of_append hc
  unfold read?
  rw [hlen, List.length_cons]
  show (if (c.advance (x :: u').length).isAt '[' then _ else _) = _
  rw [if_neg (by rw [hat]; decide), hahead]

/-- A name with its modifier in a bracket. -/
theorem read?_modified (h : Named sep c u r) (hat : (c.advance u.length).isAt '[' = true)
    (hslash : Text.endsWith u ['/'] = true) :
    let k := Brackets.closing (c.advance u.length)
    let after := (c.advance u.length).advance k.length
    read? sep c =
      some (plain (c.upTo after) (some ⟨Brackets.inner (c.advance u.length) k, true, k.closed⟩),
        after) := by
  obtain ⟨hc, hu, hlen, -⟩ := h
  obtain ⟨x, u', rfl⟩ := List.exists_cons_of_ne_nil hu
  have hahead : c.ahead (u'.length + 1) = ⟨c.offset, x :: u'⟩ := Cursor.ahead_of_append hc
  unfold read?
  rw [hlen, List.length_cons]
  show (if (c.advance (x :: u').length).isAt '[' then _ else _) = _
  rw [if_pos hat]
  dsimp only
  rw [hahead, if_pos hslash]

/-- The name without the hyphen at its end. -/
def lead (u : Text) : Text := if Text.endsWith u ['-'] then u.take (u.length - 1) else u

theorem lead_hyphen (u : Text) : lead (u ++ ['-']) = u := by
  rw [lead, if_pos (Text.endsWith_iff.mpr ⟨u, rfl⟩), List.length_append, List.length_singleton,
    Nat.add_sub_cancel, List.take_left' rfl]

/-- The lead of a bracketed value and the hyphen behind it are the name. -/
theorem exists_hyphen (u : Text) :
    ∃ hyphen : Text, (hyphen = [] ∨ hyphen = ['-']) ∧ u = lead u ++ hyphen := by
  cases h : Text.endsWith u ['-'] with
  | true =>
    obtain ⟨v, rfl⟩ := Text.endsWith_iff.mp h
    exact ⟨['-'], Or.inr rfl, by rw [lead_hyphen]⟩
  | false => exact ⟨[], Or.inl rfl, by rw [lead, h, if_neg Bool.false_ne_true, List.append_nil]⟩

/-- A name with its value in a bracket. -/
theorem read?_valued (h : Named sep c u r) (hat : (c.advance u.length).isAt '[' = true)
    (hslash : Text.endsWith u ['/'] = false) :
    let k := Brackets.closing (c.advance u.length)
    let after := (c.advance u.length).advance k.length
    let head (m : Option Modifier) : Head :=
      bracketed ⟨c.offset, lead u⟩ (Brackets.inner (c.advance u.length) k) m k.closed
    read? sep c =
      match if k.closed then trailing? sep after else none with
      | some (m, after) => some (head (some m), after)
      | none => some (head none, after) := by
  obtain ⟨hc, hu, hlen, -⟩ := h
  obtain ⟨x, u', rfl⟩ := List.exists_cons_of_ne_nil hu
  have hahead : c.ahead (u'.length + 1) = ⟨c.offset, x :: u'⟩ := Cursor.ahead_of_append hc
  unfold read?
  rw [hlen, List.length_cons]
  show (if (c.advance (x :: u').length).isAt '[' then _ else _) = _
  rw [if_pos hat]
  dsimp only
  rw [hahead, if_neg (by rw [hslash]; decide), lead]
  cases Text.endsWith (x :: u') ['-'] <;> rfl

/-- Where there is no name no head is read. -/
theorem read?_eq_none (h : nameLength sep c.rest = 0) : read? sep c = none := by
  unfold read?
  rw [h]
  rfl

/-- What is read for a head.  A bracket behind its name, at `b`, holds its modifier if the name
ends with a slash, and its value otherwise; a modifier may follow a value that is closed. -/
inductive ReadsHead (sep : Separator) (c : Cursor) : Head → Cursor → Prop where
  | plain {u r : Text} {b : Cursor} :
    Named sep c u r → c.advance u.length = b → b.isAt '[' = false →
    ReadsHead sep c (plain ⟨c.offset, u⟩ (ownModifier? ⟨c.offset, u⟩)) b
  | modified {u r : Text} {b d : Cursor} :
    Named sep c u r → c.advance u.length = b → b.isAt '[' = true →
    Text.endsWith u ['/'] = true → b.advance (Brackets.closing b).length = d →
    ReadsHead sep c (plain (c.upTo d)
      (some ⟨Brackets.inner b (Brackets.closing b), true, (Brackets.closing b).closed⟩)) d
  | valued {u r : Text} {b d : Cursor} :
    Named sep c u r → c.advance u.length = b → b.isAt '[' = true →
    Text.endsWith u ['/'] = false → b.advance (Brackets.closing b).length = d →
    ((Brackets.closing b).closed = true → trailing? sep d = none) →
    ReadsHead sep c (bracketed ⟨c.offset, lead u⟩ (Brackets.inner b (Brackets.closing b)) none
      (Brackets.closing b).closed) d
  | modifiedValue {u r : Text} {b d e : Cursor} {m : Modifier} :
    Named sep c u r → c.advance u.length = b → b.isAt '[' = true →
    Text.endsWith u ['/'] = false → b.advance (Brackets.closing b).length = d →
    (Brackets.closing b).closed = true → trailing? sep d = some (m, e) →
    ReadsHead sep c (bracketed ⟨c.offset, lead u⟩ (Brackets.inner b (Brackets.closing b)) (some m)
      true) e

theorem ReadsHead.read?_eq {head : Head} : ReadsHead sep c head d → read? sep c = some (head, d)
  | .plain hu rfl hat => read?_plain hu hat
  | .modified hu rfl hat hslash rfl => read?_modified hu hat hslash
  | .valued hu rfl hat hslash rfl hnone => by
    rw [read?_valued hu hat hslash]
    dsimp only
    split
    next m e hm =>
      split at hm
      next hclosed => exact absurd (hm.symm.trans (hnone hclosed)) (by simp)
      next => exact absurd hm (by simp)
    next => rfl
  | .modifiedValue hu rfl hat hslash rfl hclosed hm => by
    rw [read?_valued hu hat hslash]
    dsimp only
    rw [hclosed, if_pos rfl, hm]

/-- At a name a head is read. -/
theorem Named.exists_readsHead (h : Named sep c u r) : ∃ head d, ReadsHead sep c head d := by
  cases hat : (c.advance u.length).isAt '[' with
  | false => exact ⟨_, _, .plain h rfl hat⟩
  | true =>
    cases hslash : Text.endsWith u ['/'] with
    | true => exact ⟨_, _, .modified h rfl hat hslash rfl⟩
    | false =>
      by_cases hm : (Brackets.closing (c.advance u.length)).closed = true ∧
        trailing? sep ((c.advance u.length).advance
          (Brackets.closing (c.advance u.length)).length) ≠ none
      · obtain ⟨hclosed, hm⟩ := hm
        obtain ⟨⟨m, e⟩, hm⟩ := Option.ne_none_iff_exists'.mp hm
        exact ⟨_, _, .modifiedValue h rfl hat hslash rfl hclosed hm⟩
      · rw [not_and, not_not] at hm
        exact ⟨_, _, .valued h rfl hat hslash rfl hm⟩

theorem read?_eq_none_iff : read? sep c = none ↔ nameLength sep c.rest = 0 := by
  refine ⟨fun h => ?_, read?_eq_none⟩
  by_contra hne
  obtain ⟨u, r, hname⟩ := exists_named hne
  obtain ⟨head, d, hreads⟩ := hname.exists_readsHead
  exact absurd (h.symm.trans hreads.read?_eq) (by simp)

theorem read?_eq_some_iff {head : Head} :
    read? sep c = some (head, d) ↔ ReadsHead sep c head d := by
  refine ⟨fun h => ?_, ReadsHead.read?_eq⟩
  obtain ⟨u, r, hname⟩ := exists_named (mt read?_eq_none_iff.mpr (by rw [h]; simp))
  obtain ⟨head', d', hreads⟩ := hname.exists_readsHead
  obtain ⟨rfl, rfl⟩ := Prod.mk.inj (Option.some.inj (h.symm.trans hreads.read?_eq))
  exact hreads

end

/-- A head lies in the text that is read for it, which starts with a character of its
name. -/
theorem read?_laid {sep : Separator} {c d : Cursor} {head : Head}
    (h : read? sep c = some (head, d)) :
    ∃ ch t, c.Passes (ch :: t) d ∧ isNameChar ch = true ∧ head.Laid c.offset (ch :: t) d.rest := by
  -- the text starts with the name
  have from_name : ∀ {u r t : Text} {e : Cursor} {found : Head}, Named sep c u r →
      c.Passes (u ++ t) e → found.Laid c.offset (u ++ t) e.rest →
      ∃ ch t, c.Passes (ch :: t) e ∧ isNameChar ch = true ∧ found.Laid c.offset (ch :: t) e.rest := by
    intro u r t e found hu hp hlaid
    obtain ⟨ch, v, rfl⟩ := List.exists_cons_of_ne_nil hu.ne_nil
    exact ⟨ch, v ++ t, hp, hu.chars ch List.mem_cons_self, hlaid⟩
  cases read?_eq_some_iff.mp h with
  | @plain u r _ hu hb hat =>
    subst hb
    refine from_name (t := []) hu ?_ ?_ <;> rw [List.append_nil]
    · exact hu.passes
    · exact ⟨rfl, ownModifier?_laid ..⟩
  | @modified u r _ _ hu hb hat hslash hd =>
    subst hb hd
    obtain ⟨w, hw⟩ := Cursor.isAt_iff.mp hat
    obtain ⟨box, hbox, -, hboxed⟩ := Brackets.boxed_closing (by decide) hw
    have hboth := hu.passes.trans hbox
    obtain ⟨core, hcore⟩ := Text.endsWith_iff.mp hslash
    have hoffset : c.offset + Text.bytes u = c.offset + Text.bytes core + 1 := by
      rw [hcore, Text.bytes_append]
      rfl
    rw [hu.passes.offset, hoffset] at hboxed
    refine from_name hu hboth ⟨hboth.upTo, core, '/' :: box, ?_, Or.inl ⟨rfl, box, rfl, hboxed⟩⟩
    rw [hcore, List.append_assoc, List.singleton_append]
  | @valued u r _ _ hu hb hat hslash hd hnone =>
    subst hb hd
    obtain ⟨w, hw⟩ := Cursor.isAt_iff.mp hat
    obtain ⟨box, hbox, -, hboxed⟩ := Brackets.boxed_closing (by decide) hw
    obtain ⟨hyphen, hhyphen, hlead⟩ := exists_hyphen u
    rw [hu.passes.offset] at hboxed
    refine from_name hu (hu.passes.trans hbox) ⟨rfl, hyphen, box, [], hhyphen, ?_, ?_, rfl⟩
    · rw [← hlead, List.append_nil]
    · rwa [← hlead]
  | @modifiedValue u r _ _ _ m hu hb hat hslash hd hclosed hm =>
    subst hb hd
    obtain ⟨w, hw⟩ := Cursor.isAt_iff.mp hat
    obtain ⟨box, hbox, -, hboxed⟩ := Brackets.boxed_closing (by decide) hw
    obtain ⟨hyphen, hhyphen, hlead⟩ := exists_hyphen u
    obtain ⟨v, hv, hmodifier⟩ := trailing?_laid hm
    have hboth := hu.passes.trans hbox
    rw [hu.passes.offset, hv.rest_eq, hclosed] at hboxed
    rw [hboth.offset] at hmodifier
    refine from_name (t := box ++ v) hu ?_ ⟨rfl, hyphen, box, v, hhyphen, ?_, ?_, ?_⟩
    · rw [← List.append_assoc]
      exact hboth.trans hv
    · rw [← hlead, List.append_assoc]
    · rwa [← hlead]
    · rwa [← hlead]

end Head
end ClassList
end UtilityCss
