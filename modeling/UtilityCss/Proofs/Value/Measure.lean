import UtilityCss.Proofs.Value.FirstNumber

/-!
# What a value measures

A number, a length, a percentage or an angle is a dimension with a unit of its class, or arithmetic.
Arithmetic measures what its first number measures, and without a number it passes for a length.  So
a value measures one thing at most, and it belongs to one of these kinds at most, but for the zero
without a unit, which is taken for a length as well.
-/

namespace UtilityCss
namespace Value

/-- What a text measures, if it is arithmetic or a dimension. -/
def measured? (t : Text) : Option UnitClass :=
  if isMathFunction t then some ((firstUnit? t).getD .length) else dimensionClass? t

/-- A text that measures something is not empty. -/
theorem ne_nil_of_measured? {t : Text} {c : UnitClass} (h : measured? t = some c) : t ≠ [] := by
  rintro rfl
  have hnone : measured? [] = none := by decide
  rw [hnone] at h
  cases h

/-- A zero is a dimension without a unit. -/
theorem dimensionClass?_of_isZero {t : Text} (h : isZero t = true) :
    dimensionClass? t = some .unitless := by
  unfold isZero at h
  split at h
  next number hdimension =>
    rw [dimensionClass?, hdimension]
    rfl
  next => cases h

theorem isZero_of_isMathFunction {t : Text} (h : isMathFunction t = true) : isZero t = false := by
  rw [isZero, dimension?_of_isMathFunction h]

theorem measured?_of_isZero {t : Text} (h : isZero t = true) : measured? t = some .unitless := by
  have hmath : ¬isMathFunction t = true := fun hmath =>
    Bool.false_ne_true ((isZero_of_isMathFunction hmath).symm.trans h)
  rw [measured?, if_neg hmath, dimensionClass?_of_isZero h]

namespace Kind

/-- The class of numbers that a kind accepts, if it measures. -/
def measures? : Kind → Option UnitClass
  | number => some .unitless
  | length => some .length
  | percentage => some .percentage
  | angle => some .angle
  | _ => none

/-- The kinds that measure. -/
def measuring : List Kind := [number, length, percentage, angle]

/-- The kinds that measure and accept the text, in their order. -/
def acceptors (v : Text) : List Kind := measuring.filter fun k => k.accepts v false

theorem exists_measures?_of_mem {k : Kind} (h : k ∈ measuring) : ∃ c, k.measures? = some c :=
  Option.isSome_iff_exists.mp
    ((by decide : ∀ k ∈ measuring, k.measures?.isSome = true) k h)

/-- What looks like a value of a kind is what measures as the kind does; zeros look like lengths
besides. -/
theorem fits_iff_measured {k : Kind} {c : UnitClass} (hk : k.measures? = some c) (t : Text) :
    k.fits t = true ↔ measured? t = some c ∨ k = length ∧ isZero t = true := by
  by_cases hmath : isMathFunction t = true
  · have hdimension := dimension?_of_isMathFunction hmath
    have hzero := isZero_of_isMathFunction hmath
    rw [measured?, if_pos hmath]
    cases hfirst : firstUnit? t <;> cases k <;> cases hk <;>
      simp [fits, isMathOf, isLength, isPercentage, dimensionClass?, hdimension, hzero, hmath, hfirst]
  · rw [measured?, if_neg hmath]
    cases k <;> cases hk <;> simp [fits, isMathOf, isLength, isPercentage, hmath]

/-- What measures something, a zero included, is no blank. -/
theorem accepts_iff_measured {k : Kind} {c : UnitClass} (hk : k.measures? = some c) (v : Text) :
    k.accepts v false = true ↔
      measured? (Text.trim v) = some c ∨ k = length ∧ isZero (Text.trim v) = true := by
  rw [accepts_iff, fits_iff_measured hk]
  refine and_iff_right_of_imp fun h => ?_
  rcases h with h | ⟨-, h⟩
  · exact ne_nil_of_measured? h
  · exact ne_nil_of_measured? (measured?_of_isZero h)

/-- The kinds that accept a text are those that measure as it does, unless it is a zero. -/
theorem acceptors_eq (v : Text) : acceptors v = if isZero (Text.trim v) then [number, length] else
    measuring.filter fun k => k.measures? = measured? (Text.trim v) := by
  have hfilter : ∀ p : Kind → Bool, (∀ k ∈ measuring, k.accepts v false = p k) →
      acceptors v = measuring.filter p := fun p h => List.filter_congr h
  have haccepts : ∀ k ∈ measuring, ∃ c, k.measures? = some c ∧ (k.accepts v false = true ↔
      measured? (Text.trim v) = some c ∨ k = length ∧ isZero (Text.trim v) = true) := by
    intro k hk
    obtain ⟨c, hc⟩ := exists_measures?_of_mem hk
    exact ⟨c, hc, accepts_iff_measured hc v⟩
  split
  next hzero =>
    rw [hfilter (fun k => k = number || k = length)]
    · rfl
    · intro k hk
      obtain ⟨c, hc, hiff⟩ := haccepts k hk
      rw [Bool.eq_iff_iff, hiff, measured?_of_isZero hzero]
      cases k <;> cases hc <;> simp [hzero]
  next hzero =>
    refine hfilter _ fun k hk => ?_
    obtain ⟨c, hc, hiff⟩ := haccepts k hk
    rw [Bool.eq_iff_iff, hiff, hc]
    simp [hzero, eq_comm]

/-- **The kinds that measure exclude each other.**  At most one of the kinds of numbers, lengths,
percentages and angles accepts a text, unless this is a number without a unit that is read as zero:
that is accepted as a number and as a length.  So no arithmetic is accepted by two of them.  Blanks
around the text are no part of it. -/
theorem acceptors_exclusive (v : Text) :
    (isZero (Text.trim v) = true →
      dimensionClass? (Text.trim v) = some .unitless ∧ acceptors v = [number, length]) ∧
    (isZero (Text.trim v) = false → (acceptors v).length ≤ 1) ∧
    (isMathFunction (Text.trim v) = true → (acceptors v).length ≤ 1) := by
  have hsole : isZero (Text.trim v) = false → (acceptors v).length ≤ 1 := by
    intro hzero
    rw [acceptors_eq, hzero, if_neg Bool.false_ne_true]
    cases measured? (Text.trim v) with
    | none => decide
    | some c => cases c <;> decide
  exact ⟨fun hzero => ⟨dimensionClass?_of_isZero hzero, by rw [acceptors_eq, if_pos hzero]⟩, hsole,
    fun hmath => hsole (isZero_of_isMathFunction hmath)⟩

/-- Arithmetic is a percentage alone, the length behind it notwithstanding. -/
theorem acceptors_exclusive_sum : isMathFunction (Text.trim " calc(50% + 1px) ") = true ∧
    acceptors " calc(50% + 1px) " = [percentage] ∧
    (acceptors " calc(50% + 1px) ").length ≤ 1 :=
  ⟨by decide, by decide, (acceptors_exclusive " calc(50% + 1px) ").2.2 (by decide)⟩

end Kind
end Value
end UtilityCss
