import UtilityCss.Proofs.Bracketed
import UtilityCss.Proofs.ClassList.Chain
import UtilityCss.Registry.Selector

/-!
# Classes that are spelled out

A name can hold any characters, and in a selector it is spelled with a backslash in front of those
that would mean something else there.  So spelled it is one class, whatever its characters are: no
comma, quote or bracket in it is seen by what looks for the classes of a selector.

The levels around a class come out of a style tree in their order, at-rules as they are and
selectors with `&` in them.
-/

namespace UtilityCss

namespace Split

variable {p : Char → Bool} {c : Char} {t part : Text} {rest : List Text}

/-- A character that does not separate goes on with the part that comes behind it. -/
theorem parts_cons {s : State} (hc : s.splitsAt p c = false)
    (h : parts p (s.next c) t = part :: rest) : parts p s (c :: t) = (c :: part) :: rest := by
  rw [parts, if_neg (by rw [hc]; exact Bool.false_ne_true), h]

/-- A character that means nothing goes on at the top level. -/
theorem parts_plain (hc : Brackets.isPlain c = true) (hp : p c = false)
    (h : parts p .top t = part :: rest) : parts p .top (c :: t) = (c :: part) :: rest := by
  obtain ⟨hquote, hopen, hclose, hescape⟩ := Brackets.isPlain_iff.mp hc
  have hsplits : State.splitsAt .top p c = false := by simp [State.splitsAt, hp]
  have hnext : State.top.next c = .top := by
    simp [State.next, State.top, hquote, hopen, hclose, hescape]
  exact parts_cons hsplits (hnext.symm ▸ h)

end Split

namespace Selector

/-! ## Names in selectors -/

/-- Does the character stand for itself in the name of a class? -/
def isBare (c : Char) : Bool := c.isAlphanum || c = '-' || c = '_' || 0x80 ≤ c.toNat

/-- A character of a name as it is written in a selector. -/
def escape (c : Char) : Text := if isBare c then [c] else ['\x5c', c]

/-- A name as it is written in a selector. -/
def escaped (name : Text) : Text := name.flatMap escape

theorem escape_cases (c : Char) :
    isBare c = true ∧ escape c = [c] ∨ isBare c = false ∧ escape c = ['\x5c', c] := by
  unfold escape
  cases isBare c <;> simp

theorem escaped_cons (c : Char) (name : Text) : escaped (c :: name) = escape c ++ escaped name :=
  rfl

/-- A character that stands for itself means nothing else in a selector. -/
theorem isPlain_of_isBare {c : Char} (h : isBare c = true) :
    Brackets.isPlain c = true ∧ c ≠ ',' := by
  have hne : ∀ x : Char, isBare x = false → c ≠ x := by
    rintro x hx rfl
    rw [h] at hx
    exact Bool.noConfusion hx
  simp only [Brackets.isPlain_iff, Brackets.isQuote, Brackets.isOpening, Brackets.isClosing,
    Bool.or_eq_false_iff, decide_eq_false_iff_not]
  exact ⟨⟨⟨hne _ (by decide), hne _ (by decide)⟩, ⟨⟨hne _ (by decide), hne _ (by decide)⟩,
    hne _ (by decide)⟩, ⟨⟨hne _ (by decide), hne _ (by decide)⟩, hne _ (by decide)⟩,
    hne _ (by decide)⟩, hne _ (by decide)⟩

/-- The name of a class is read to its end. -/
theorem className_escaped : ∀ name : Text,
    className (escaped name) = (name, (escaped name).length)
  | [] => rfl
  | c :: name => by
    have ih := className_escaped name
    rcases escape_cases c with ⟨hbare, hc⟩ | ⟨-, hc⟩
    · have hescape : c ≠ '\x5c' := (Brackets.isPlain_iff.mp (isPlain_of_isBare hbare).1).2.2.2
      have hletter : Text.isAlphanumeric c = true ∨ c = '-' ∨ c = '_' ∨ 0x80 ≤ c.toNat := by
        simp only [isBare, Bool.or_eq_true, decide_eq_true_eq] at hbare
        rcases hbare with ((hbare | hbare) | hbare) | hbare
        · by_cases hascii : c.toNat < 0x80
          · exact .inl ((Text.isAlphanumeric_of_ascii hascii).trans hbare)
          · exact .inr (.inr (.inr (Nat.not_lt.mp hascii)))
        · exact .inr (.inl hbare)
        · exact .inr (.inr (.inl hbare))
        · exact .inr (.inr (.inr hbare))
      rw [escaped_cons, hc, List.singleton_append, className, ih]
      · simp [hescape, hletter, or_assoc]
      · rintro x u rfl -
        exact hescape rfl
    · rw [escaped_cons, hc]
      show className ('\x5c' :: c :: escaped name) = _
      rw [className, ih]
      rfl

/-- No comma is seen in a name. -/
theorem parts_escaped : ∀ name : Text,
    Split.parts (· = ',') .top (escaped name) = [escaped name]
  | [] => rfl
  | c :: name => by
    have ih := parts_escaped name
    rcases escape_cases c with ⟨hbare, hc⟩ | ⟨-, hc⟩
    · obtain ⟨hplain, hcomma⟩ := isPlain_of_isBare hbare
      rw [escaped_cons, hc]
      exact Split.parts_plain hplain (decide_eq_false hcomma) ih
    · have hinner : Split.parts (· = ',') ⟨0, none, true⟩ (c :: escaped name) =
          [c :: escaped name] := Split.parts_cons rfl ih
      rw [escaped_cons, hc]
      exact Split.parts_cons (by decide) hinner

theorem isBlank_of_mem_escaped {name : Text} (h : ∀ c ∈ name, Text.isBlank c = false) :
    ∀ c ∈ escaped name, Text.isBlank c = false := by
  intro c hc
  obtain ⟨x, hx, hcx⟩ := List.mem_flatMap.mp hc
  rcases escape_cases x with ⟨-, hescape⟩ | ⟨-, hescape⟩ <;> rw [hescape] at hcx
  · rw [List.mem_singleton.mp hcx]
    exact h x hx
  · rcases List.mem_cons.mp hcx with rfl | hcx
    · decide
    · rw [List.mem_singleton.mp hcx]
      exact h x hx

/-- Nothing is found in characters that are skipped. -/
theorem classesFrom_skip : ∀ (t : Text) (depth : Nat) (quote : Option Char) (before : Text),
    classesFrom t.length depth quote before t = []
  | [], _, _, _ => by rw [classesFrom]
  | c :: t, depth, quote, before => by
    rw [List.length_cons, classesFrom, classesFrom_skip t]

/-- A selector that is one class, its name spelled out, has that class and nothing around it. -/
theorem classes_escaped {name : Text} (hne : name ≠ [])
    (hblank : ∀ c ∈ name, Text.isBlank c = false) :
    classes ('.' :: escaped name) = [⟨name, ['&']⟩] := by
  have hdot : Split.State.splitsAt .top (· = ',') '.' = false := by decide
  have hparts : Split.atChar ',' ('.' :: escaped name) = ['.' :: escaped name] :=
    Split.parts_cons hdot (parts_escaped name)
  have htrim : Text.trim ('.' :: escaped name) = '.' :: escaped name :=
    Text.trim_eq_self fun c hc => by
      rcases List.mem_cons.mp hc with rfl | hc
      · decide
      · exact isBlank_of_mem_escaped hblank c hc
  obtain ⟨c, t, rfl⟩ := List.exists_cons_of_ne_nil hne
  rw [classes, hparts, List.flatMap_cons, List.flatMap_nil, List.append_nil, htrim, classesFrom]
  simp only [className_escaped, show Brackets.isQuote '.' = false by decide, Bool.false_eq_true,
    if_false, show ('.' = '(' || '.' = '[') = false by decide,
    show ('.' = ')' || '.' = ']') = false by decide, decide_true, Bool.and_self, if_true,
    List.drop_length, List.reverse_nil, List.nil_append, classesFrom_skip]

/-! ## Levels around a class -/

/-- What is around a class, as a level of what it stands for. -/
def level (key : Text) : Text := if StyleTree.isAtRule key then key else ancestor key

/-- A class inside at-rules and selectors without classes is found with these levels. -/
theorem bodies_nestIn {name : Text} (hne : name ≠ [])
    (hblank : ∀ c ∈ name, Text.isBlank c = false) (body : StyleTree) :
    ∀ (levels outer : List Text),
      (∀ key ∈ levels, StyleTree.isAtRule key = true ∨ classes key = []) →
      bodies outer (StyleTree.nestIn levels [('.' :: escaped name, .tree body)]) =
        [⟨name, outer ++ levels.map level, body⟩]
  | [], outer, _ => by
    have hrule : StyleTree.isAtRule ('.' :: escaped name) = false := rfl
    show bodiesUnder outer ('.' :: escaped name) (.tree body) ++ bodies outer [] = _
    rw [bodiesUnder, hrule, classes_escaped hne hblank, bodies, List.map_nil, List.append_nil,
      List.append_nil]
    rfl
  | key :: levels, outer, h => by
    obtain ⟨hkey, hlevels⟩ := List.forall_mem_cons.mp h
    have ih := bodies_nestIn hne hblank body levels (outer ++ [level key]) hlevels
    rw [List.append_assoc, List.singleton_append] at ih
    rw [List.map_cons, ← ih]
    show bodiesUnder outer key (.tree _) ++ bodies outer [] = _
    rw [bodiesUnder, bodies, List.append_nil, level]
    split
    · rfl
    · rename_i hrule
      rw [hkey.resolve_left hrule]
      rfl

end Selector
end UtilityCss
