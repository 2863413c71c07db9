import Mathlib.Data.List.TakeWhile
import UtilityCss.Value.Dimension

/-!
# Numbers as they are written

An unsigned number is a run of digits with at most one point, which has digits behind it, perhaps
an exponent, and a percent sign or the letters of a unit.  The letter `e` alone is no unit: in
front of a sign it would be read as that of an exponent.

What is read off a text that begins with such a number is the number and its unit, if the text does
not go on like one (`number?_text`, `unitAt_unit`).
-/

namespace UtilityCss
namespace Value

/-- The exponent of a number. -/
structure Exponent where
  letter : Char
  sign : Text
  digits : Text
  isLetter : letter = 'e' ∨ letter = 'E'
  isSign : sign = [] ∨ sign = ['+'] ∨ sign = ['-']
  digits_ne_nil : digits ≠ []
  isDigit_of_mem : ∀ c ∈ digits, c.isDigit = true

/-- The characters of the exponent. -/
def Exponent.text (e : Exponent) : Text := e.letter :: (e.sign ++ e.digits)

/-- An unsigned number with its unit. -/
structure Numeral where
  /-- The digits in front of the point, or all of them. -/
  whole : Text
  /-- The digits behind the point, none if there is no point. -/
  places : Text
  exponent : Option Exponent
  unit : Text
  isDigit_of_mem_whole : ∀ c ∈ whole, c.isDigit = true
  isDigit_of_mem_places : ∀ c ∈ places, c.isDigit = true
  digits_ne_nil : whole ≠ [] ∨ places ≠ []
  isUnit : unit = ['%'] ∨ (∀ c ∈ unit, c.isAlpha = true) ∧ unit ≠ ['e'] ∧ unit ≠ ['E']

/-- A text does not go on with what could belong to a number in front of it. -/
def EndsNumber (r : Text) : Prop := ∀ c ∈ r.head?, c.isAlphanum = false ∧ c ≠ '.' ∧ c ≠ '%'

/-! ## Digits and letters -/

theorem isAlpha_of_isDigit {c : Char} (h : c.isDigit = true) : c.isAlpha = false := by
  have hle : c.val.toNat ≤ 57 := of_decide_eq_true (Bool.and_eq_true_iff.mp h).2
  refine Bool.or_eq_false_iff.mpr ⟨decide_eq_false ?_, Bool.eq_false_iff.mpr fun hlower => ?_⟩
  · rintro ⟨hupper, -⟩
    have hupper : 65 ≤ c.val.toNat := hupper
    omega
  · have hlower : 97 ≤ c.val.toNat := of_decide_eq_true (Bool.and_eq_true_iff.mp hlower).1
    omega

theorem isDigit_of_isAlpha {c : Char} (h : c.isAlpha = true) : c.isDigit = false :=
  Bool.eq_false_iff.mpr fun hdigit => by
    rw [isAlpha_of_isDigit hdigit] at h
    exact Bool.noConfusion h

theorem ne_of_isDigit {c x : Char} (h : c.isDigit = true) (hx : x.isDigit = false) : c ≠ x := by
  rintro rfl
  rw [hx] at h
  exact Bool.noConfusion h

theorem ne_of_isAlpha {c x : Char} (h : c.isAlpha = true) (hx : x.isAlpha = false) : c ≠ x := by
  rintro rfl
  rw [hx] at h
  exact Bool.noConfusion h

theorem isAlphanum_of_isAlpha {c : Char} (h : c.isAlpha = true) : c.isAlphanum = true := by
  rw [Char.isAlphanum, h, Bool.true_or]

theorem isAlphanum_of_isDigit {c : Char} (h : c.isDigit = true) : c.isAlphanum = true := by
  rw [Char.isAlphanum, h, Bool.or_true]

theorem isAlphanum_eq_false_iff {c : Char} :
    c.isAlphanum = false ↔ c.isAlpha = false ∧ c.isDigit = false :=
  Bool.or_eq_false_iff

theorem spanDigits_digits {d r : Text} (hd : ∀ c ∈ d, c.isDigit = true)
    (hr : ∀ c ∈ r.head?, c.isDigit = false) : Decimal.spanDigits (d ++ r) = (d, r) := by
  have hrest : r.takeWhile Char.isDigit = [] ∧ r.dropWhile Char.isDigit = r := by
    cases r with
    | nil => exact ⟨rfl, rfl⟩
    | cons c r =>
      have hc : ¬c.isDigit = true := Bool.eq_false_iff.mp (hr c rfl)
      exact ⟨List.takeWhile_cons_of_neg hc, List.dropWhile_cons_of_neg hc⟩
  rw [Decimal.spanDigits, List.takeWhile_append_of_pos hd, List.dropWhile_append_of_pos hd,
    hrest.1, hrest.2, List.append_nil]

/-! ## Signs and exponents -/

/-- A sign, or none. -/
def IsSign (s : Text) : Prop := s = [] ∨ s = ['+'] ∨ s = ['-']

theorem spanSign_cases (t : Text) : IsSign (spanSign t).1 ∧ t = (spanSign t).1 ++ (spanSign t).2 := by
  unfold spanSign
  split
  · exact ⟨.inr (.inl rfl), rfl⟩
  · exact ⟨.inr (.inr rfl), rfl⟩
  · exact ⟨.inl rfl, rfl⟩

/-- The text does not begin with a sign. -/
def Signless (u : Text) : Prop := ∀ c ∈ u.head?, c ≠ '+' ∧ c ≠ '-'

theorem spanSign_append {s u : Text} (hs : IsSign s) (hu : Signless u) :
    spanSign (s ++ u) = (s, u) := by
  rcases hs with rfl | rfl | rfl
  · rw [List.nil_append, spanSign]
    · rintro v rfl
      exact (hu '+' rfl).1 rfl
    · rintro v rfl
      exact (hu '-' rfl).2 rfl
  · rfl
  · rfl

/-- Where no letter of an exponent stands there is none. -/
theorem spanExponent_of_ne {t : Text} (h : ∀ c ∈ t.head?, c ≠ 'e' ∧ c ≠ 'E') :
    spanExponent t = ([], t) := by
  cases t with
  | nil => rfl
  | cons c t =>
    obtain ⟨hlower, hupper⟩ := h c rfl
    rw [spanExponent, decide_eq_false hlower, decide_eq_false hupper, Bool.or_false,
      if_neg Bool.false_ne_true]

/-- The letter of an exponent has to be in front of a digit or of a sign. -/
theorem spanExponent_cons {x : Char} {u : Text} (hsign : Signless u)
    (hdigit : ∀ c ∈ u.head?, c.isDigit = false) : spanExponent (x :: u) = ([], x :: u) := by
  have hnone : spanSign u = ([], u) := spanSign_append (.inl rfl) hsign
  have hdigits : Decimal.spanDigits u = ([], u) :=
    spanDigits_digits (d := []) (fun _ h => absurd h List.not_mem_nil) hdigit
  rw [spanExponent, hnone]
  dsimp only
  rw [hdigits]
  exact ite_self _

theorem spanExponent_append {x : Char} {s digits r : Text} (hx : x = 'e' ∨ x = 'E') (hs : IsSign s)
    (hdigits : ∀ c ∈ digits, c.isDigit = true) (hne : digits ≠ [])
    (hr : ∀ c ∈ r.head?, c.isDigit = false) :
    spanExponent (x :: (s ++ digits) ++ r) = (x :: (s ++ digits), r) := by
  have hletter : (decide (x = 'e') || decide (x = 'E')) = true := by
    rwa [Bool.or_eq_true, decide_eq_true_eq, decide_eq_true_eq]
  have hsignless : Signless (digits ++ r) := by
    obtain ⟨d, ds, rfl⟩ := List.exists_cons_of_ne_nil hne
    have hd : d.isDigit = true := hdigits d List.mem_cons_self
    intro c hc
    rw [← Option.some.inj hc]
    exact ⟨ne_of_isDigit hd (by decide), ne_of_isDigit hd (by decide)⟩
  rw [List.cons_append, List.append_assoc, spanExponent, if_pos hletter,
    spanSign_append hs hsignless]
  dsimp only
  rw [spanDigits_digits hdigits hr, List.isEmpty_eq_false_iff.mpr hne, if_neg Bool.false_ne_true]
  rfl

namespace Numeral

variable (n : Numeral)

/-- The digits of the number with their point. -/
def mantissa : Text := n.whole ++ if n.places = [] then [] else '.' :: n.places

/-- The characters of the exponent, if there is one. -/
def exponentText : Text := (n.exponent.map Exponent.text).getD []

/-- The characters of the number. -/
def text : Text := n.mantissa ++ (n.exponentText ++ n.unit)

/-- What the number measures. -/
def unitClass : UnitClass := .ofUnit n.unit

variable {n}

/-- A number begins with a digit or with a point in front of one. -/
theorem exists_mantissa : (∃ d m, n.mantissa = d :: m ∧ d.isDigit = true) ∨
    ∃ d m, n.mantissa = '.' :: d :: m ∧ d.isDigit = true := by
  rcases hwhole : n.whole with _ | ⟨d, m⟩
  · obtain ⟨d, m, hplaces⟩ := List.exists_cons_of_ne_nil
      (n.digits_ne_nil.resolve_left fun hne => hne hwhole)
    have hd : d.isDigit = true := n.isDigit_of_mem_places d (by simp [hplaces])
    exact Or.inr ⟨d, m, by simp [mantissa, hwhole, hplaces], hd⟩
  · have hd : d.isDigit = true := n.isDigit_of_mem_whole d (by simp [hwhole])
    exact Or.inl ⟨d, _, by rw [mantissa, hwhole, List.cons_append], hd⟩

/-- The last character in front of an exponent and a unit is a digit. -/
theorem exists_mantissa_concat : ∃ m d, n.mantissa = m ++ [d] ∧ d.isDigit = true := by
  by_cases hplaces : n.places = []
  · have hne := n.digits_ne_nil.resolve_right (not_not_intro hplaces)
    refine ⟨n.whole.dropLast, n.whole.getLast hne, ?_,
      n.isDigit_of_mem_whole _ (List.getLast_mem hne)⟩
    rw [mantissa, if_pos hplaces, List.append_nil, List.dropLast_concat_getLast]
  · refine ⟨n.whole ++ '.' :: n.places.dropLast, n.places.getLast hplaces, ?_,
      n.isDigit_of_mem_places _ (List.getLast_mem hplaces)⟩
    rw [mantissa, if_neg hplaces, List.append_assoc, List.cons_append,
      List.dropLast_concat_getLast]

/-- The unit does not go on with a number. -/
theorem endsDigits_unit {r : Text} (hr : EndsNumber r) :
    ∀ c ∈ (n.unit ++ r).head?, c.isDigit = false ∧ c ≠ '.' := by
  intro c hc
  rcases hunit : n.unit with _ | ⟨x, u⟩
  · rw [hunit, List.nil_append] at hc
    exact ⟨(isAlphanum_eq_false_iff.mp (hr c hc).1).2, (hr c hc).2.1⟩
  · rw [hunit] at hc
    obtain rfl : x = c := Option.some.inj hc
    rcases n.isUnit with hpercent | ⟨hletters, -⟩
    · rw [hunit] at hpercent
      obtain ⟨rfl, -⟩ := List.cons.inj hpercent
      decide
    · have hx := hletters x (by simp [hunit])
      exact ⟨isDigit_of_isAlpha hx, ne_of_isAlpha hx (by decide)⟩

theorem endsDigits_exponentText {r : Text} (hr : EndsNumber r) :
    ∀ c ∈ (n.exponentText ++ (n.unit ++ r)).head?, c.isDigit = false ∧ c ≠ '.' := by
  rcases hexponent : n.exponent with _ | e
  · rw [exponentText, hexponent]
    exact endsDigits_unit hr
  · intro c hc
    rw [exponentText, hexponent] at hc
    obtain rfl : e.letter = c := Option.some.inj hc
    rcases e.isLetter with h | h <;> rw [h] <;> decide

/-! ## Reading a number -/

theorem unsigned?_mantissa {u : Text} (hu : ∀ c ∈ u.head?, c.isDigit = false ∧ c ≠ '.') :
    unsigned? (n.mantissa ++ u) = some (n.mantissa, u) := by
  have hend : ∀ c ∈ u.head?, c.isDigit = false := fun c hc => (hu c hc).1
  by_cases hplaces : n.places = []
  · have hne : n.whole.isEmpty = false :=
      List.isEmpty_eq_false_iff.mpr (n.digits_ne_nil.resolve_right (not_not_intro hplaces))
    rw [mantissa, if_pos hplaces, List.append_nil, unsigned?,
      spanDigits_digits n.isDigit_of_mem_whole hend]
    dsimp only
    split
    next t => exact absurd rfl (hu '.' rfl).2
    next => rw [hne, if_neg Bool.false_ne_true]
  · have hpoint : ∀ c ∈ ('.' :: (n.places ++ u)).head?, c.isDigit = false := by
      rintro c hc
      rw [← Option.some.inj hc]
      decide
    have hne : n.places.isEmpty = false := List.isEmpty_eq_false_iff.mpr hplaces
    rw [mantissa, if_neg hplaces, List.append_assoc, List.cons_append, unsigned?,
      spanDigits_digits n.isDigit_of_mem_whole hpoint]
    simp [spanDigits_digits n.isDigit_of_mem_places hend, hne]

/-- A unit that begins with the letter of an exponent goes on with a letter. -/
theorem spanExponent_unit {r : Text} (hr : EndsNumber r) :
    spanExponent (n.unit ++ r) = ([], n.unit ++ r) := by
  rcases hunit : n.unit with _ | ⟨x, u⟩
  · refine spanExponent_of_ne fun c hc => ?_
    have hletter := (isAlphanum_eq_false_iff.mp (hr c hc).1).1
    exact ⟨(ne_of_isAlpha (by decide) hletter).symm, (ne_of_isAlpha (by decide) hletter).symm⟩
  rcases n.isUnit with hpercent | ⟨hletters, hlower, hupper⟩
  · rw [hunit] at hpercent
    obtain ⟨rfl, -⟩ := List.cons.inj hpercent
    exact spanExponent_of_ne fun c hc => by rw [← Option.some.inj hc]; decide
  rw [hunit] at hletters hlower hupper
  cases u with
  | nil =>
    refine spanExponent_of_ne fun c hc => ?_
    rw [← Option.some.inj hc]
    exact ⟨fun hx => hlower (by rw [hx]), fun hx => hupper (by rw [hx])⟩
  | cons y u =>
    have hy : y.isAlpha = true := hletters y (by simp)
    refine spanExponent_cons (fun c hc => ?_) fun c hc => ?_
    · rw [← Option.some.inj hc]
      exact ⟨ne_of_isAlpha hy (by decide), ne_of_isAlpha hy (by decide)⟩
    · rw [← Option.some.inj hc]
      exact isDigit_of_isAlpha hy

theorem spanExponent_exponentText {r : Text} (hr : EndsNumber r) :
    spanExponent (n.exponentText ++ (n.unit ++ r)) = (n.exponentText, n.unit ++ r) := by
  rcases hexponent : n.exponent with _ | e
  · rw [exponentText, hexponent]
    exact spanExponent_unit hr
  · rw [exponentText, hexponent]
    exact spanExponent_append e.isLetter e.isSign e.isDigit_of_mem e.digits_ne_nil fun c hc =>
      (endsDigits_unit hr c hc).1

/-- A text that begins with a number is read as that number. -/
theorem number?_text {r : Text} (hr : EndsNumber r) :
    number? (n.text ++ r) = some (n.mantissa ++ n.exponentText, n.unit ++ r) := by
  have hsign : spanSign (n.text ++ r) = ([], n.text ++ r) := by
    refine spanSign_append (.inl rfl) fun c hc => ?_
    rcases n.exists_mantissa with ⟨d, m, hm, hd⟩ | ⟨d, m, hm, -⟩
    · rw [text, hm] at hc
      rw [← Option.some.inj hc]
      exact ⟨ne_of_isDigit hd (by decide), ne_of_isDigit hd (by decide)⟩
    · rw [text, hm] at hc
      rw [← Option.some.inj hc]
      decide
  have htext : n.text ++ r = n.mantissa ++ (n.exponentText ++ (n.unit ++ r)) := by simp [text]
  rw [number?, hsign]
  dsimp only
  rw [htext, unsigned?_mantissa (endsDigits_exponentText hr)]
  show some ([] ++ n.mantissa ++ (spanExponent _).1, (spanExponent _).2) = _
  rw [spanExponent_exponentText hr]
  rfl

/-- What is behind the number is its unit. -/
theorem unitAt_unit {r : Text} (hr : EndsNumber r) : unitAt (n.unit ++ r) = n.unit := by
  rcases n.isUnit with hpercent | ⟨hletters, -⟩
  · rw [hpercent]
    rfl
  · have hrest : r.takeWhile Char.isAlpha = [] := by
      cases r with
      | nil => rfl
      | cons c r =>
        have hc := (isAlphanum_eq_false_iff.mp (hr c rfl).1).1
        exact List.takeWhile_cons_of_neg (Bool.eq_false_iff.mp hc)
    rw [unitAt]
    · rw [List.takeWhile_append_of_pos hletters, hrest, List.append_nil]
    · intro v hv
      cases hunit : n.unit with
      | nil =>
        rw [hunit, List.nil_append] at hv
        exact (hr '%' (by rw [hv]; rfl)).2.2 rfl
      | cons x u =>
        rw [hunit] at hv hletters
        exact ne_of_isAlpha (hletters x (by simp)) (by decide) (List.cons.inj hv).1

end Numeral
end Value
end UtilityCss
