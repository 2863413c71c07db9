import Mathlib.Data.List.Basic
import UtilityCss.Value.Expression

/-!
# Values without arithmetic

Signs are spaced out inside of math functions only.  A parenthesis opens one when the word right
in front of it is the name of one, so a value in which no such word stands in front of a
parenthesis is left as it is, whatever signs it holds: `minmax(0,1fr-1px)` calls no function of
arithmetic although `max(` occurs in it.
-/

namespace UtilityCss
namespace Value

/-- May the character be part of a word? -/
def isWordChar (c : Char) : Bool := c.isAlphanum || c = '_'

/-- The word right behind a place, which begins with a letter; the characters behind are given
from the nearest on. -/
def wordBehind (behind : Text) : Text :=
  (behind.takeWhile isWordChar).reverse.dropWhile fun c => !c.isAlpha

/-- No word in front of a parenthesis is the name of a function of arithmetic. -/
def CallsNoMath (t : Text) : Prop :=
  ∀ before rest, t = before ++ '(' :: rest → wordBehind before.reverse ∉ mathFunctions

/-- Does the word in front of some parenthesis name a function of arithmetic? -/
def callsMath : Text → Text → Bool
  | _, [] => false
  | behind, c :: t =>
    (c = '(' && wordBehind behind ∈ mathFunctions) || callsMath (c :: behind) t

theorem callsMath_iff : ∀ {behind t : Text}, callsMath behind t = true ↔
    ∃ before rest, t = before ++ '(' :: rest ∧
      wordBehind (before.reverse ++ behind) ∈ mathFunctions
  | behind, [] => by simp [callsMath]
  | behind, c :: t => by
    rw [callsMath, Bool.or_eq_true, callsMath_iff, Bool.and_eq_true, decide_eq_true_eq,
      decide_eq_true_eq]
    constructor
    · rintro (⟨rfl, hword⟩ | ⟨before, rest, rfl, hword⟩)
      · exact ⟨[], t, rfl, hword⟩
      · exact ⟨c :: before, rest, rfl, by simpa using hword⟩
    · rintro ⟨_ | ⟨x, before⟩, rest, ht, hword⟩
      · obtain ⟨rfl, -⟩ := List.cons.inj ht
        exact Or.inl ⟨rfl, hword⟩
      · obtain ⟨rfl, rfl⟩ := List.cons.inj ht
        exact Or.inr ⟨before, rest, rfl, by simpa using hword⟩

theorem callsNoMath_iff {t : Text} : CallsNoMath t ↔ callsMath [] t = false := by
  rw [Bool.eq_false_iff, ne_eq, callsMath_iff]
  constructor
  · rintro h ⟨before, rest, ht, hword⟩
    exact h before rest ht (by rwa [List.append_nil] at hword)
  · rintro h before rest ht hword
    exact h ⟨before, rest, ht, by rwa [List.append_nil]⟩

instance (t : Text) : Decidable (CallsNoMath t) := decidable_of_iff _ callsNoMath_iff.symm

namespace Spacing

/-- Outside of arithmetic: no open parenthesis holds any, and the word is the one right behind. -/
structure Plain (s : Spacing) : Prop where
  levels : ∀ math ∈ s.levels, math = false
  word : s.word.reverse = wordBehind s.written

theorem Plain.inMath {s : Spacing} (h : s.Plain) : s.inMath = false := by
  rw [Spacing.inMath]
  cases hlevels : s.levels with
  | nil => rfl
  | cons math rest =>
    rw [h.levels math (by rw [hlevels]; exact List.mem_cons_self ..)]
    rfl

theorem wordBehind_of_not_word {c : Char} (h : isWordChar c = false) (behind : Text) :
    wordBehind (c :: behind) = [] := by
  rw [wordBehind, List.takeWhile_cons_of_neg (by rw [h]; decide)]
  rfl

/-- A word goes on with any of its characters, and begins with a letter. -/
theorem wordBehind_cons {c : Char} (h : isWordChar c = true) (behind : Text) :
    wordBehind (c :: behind) =
      if c.isAlpha || !(wordBehind behind).isEmpty then wordBehind behind ++ [c] else [] := by
  rw [wordBehind, List.takeWhile_cons_of_pos h, List.reverse_cons, List.dropWhile_append]
  show (if (wordBehind behind).isEmpty then _ else wordBehind behind ++ [c]) = _
  cases hword : wordBehind behind with
  | nil => cases halpha : c.isAlpha <;> simp [halpha]
  | cons x word => simp

/-- Outside of arithmetic a character is written as it is, and unless it opens a function of
arithmetic nothing else changes. -/
theorem Plain.step {s : Spacing} (h : s.Plain) {c : Char} (next : Option Char)
    (hc : c = '(' → wordBehind s.written ∉ mathFunctions) :
    (s.step c next).Plain ∧ (s.step c next).written = c :: s.written := by
  unfold Spacing.step
  split
  next hopen =>
    subst hopen
    have hmath : (decide (s.word.reverse ∈ mathFunctions) || s.word.isEmpty && s.inMath) = false := by
      rw [h.word, decide_eq_false (hc rfl), h.inMath, Bool.and_false, Bool.or_false]
    refine ⟨⟨?_, (wordBehind_of_not_word (by decide) _).symm⟩, rfl⟩
    simp only [hmath]
    exact List.forall_mem_cons.mpr ⟨rfl, h.levels⟩
  split
  next hclose =>
    subst hclose
    exact ⟨⟨fun math hmem => h.levels math (List.mem_of_mem_tail hmem),
      (wordBehind_of_not_word (by decide) _).symm⟩, rfl⟩
  rw [h.inMath, Bool.and_false, if_neg Bool.false_ne_true]
  split
  next hword =>
    refine ⟨⟨h.levels, ?_⟩, rfl⟩
    have hempty : (wordBehind s.written).isEmpty = s.word.isEmpty := by
      rw [← h.word, List.isEmpty_reverse]
    rw [wordBehind_cons hword, hempty]
    show (if c.isAlpha || !s.word.isEmpty then c :: s.word else s.word).reverse = _
    split
    next => rw [List.reverse_cons, h.word]
    next hnone =>
      rw [Bool.not_eq_true, Bool.or_eq_false_iff, Bool.not_eq_false', List.isEmpty_iff] at hnone
      rw [hnone.2, List.reverse_nil]
  next hword =>
    exact ⟨⟨h.levels, (wordBehind_of_not_word (Bool.not_eq_true _ ▸ hword) _).symm⟩, rfl⟩

/-- Outside of arithmetic a text without functions of arithmetic is written as it is. -/
theorem Plain.run : ∀ {t : Text} {s : Spacing}, s.Plain → callsMath s.written t = false →
    (s.run t).written = t.reverse ++ s.written
  | [], _, _, _ => rfl
  | c :: t, s, h, ht => by
    rw [callsMath, Bool.or_eq_false_iff, Bool.and_eq_false_iff] at ht
    obtain ⟨hplain, hwritten⟩ := h.step (c := c) t.head? (by
      rintro rfl
      simpa using ht.1)
    rw [Spacing.run, Plain.run hplain (by rw [hwritten]; exact ht.2), hwritten, List.reverse_cons,
      List.append_assoc, List.singleton_append]

end Spacing

/-- A text that calls no function of arithmetic gets no spaces. -/
theorem spaceMath_eq_self {t : Text} (h : CallsNoMath t) : spaceMath t = t := by
  unfold spaceMath
  split
  · rw [Spacing.Plain.run ⟨by simp, rfl⟩ (callsNoMath_iff.mp h), List.append_nil,
      List.reverse_reverse]
  · rfl

end Value
end UtilityCss
