import Mathlib.Algebra.Field.Rat
import UtilityCss.Proofs.Value.Numeral
import UtilityCss.Proofs.Value.Shape

/-!
# Negating numbers with units

The sign of a dimension is flipped in its text: a minus is taken away, and otherwise one is written
in the place of a plus or in front.  A zero without an exponent has no sign afterwards.

What this does to the number is said with its exact value, a rational, which the double it is read
as only approximates.  A dimension is a sign in front of a dimension without one
(`exists_unsigned`), and any sign may stand there instead (`dimension?_sign`), so it remains to see
when the digits spell zero (`exactMagnitude?_unsigned`).
-/

namespace UtilityCss

namespace Text

/-- Only zeros spell zero. -/
theorem toNat_eq_zero_iff {t : Text} (ht : ∀ c ∈ t, c.isDigit = true) :
    toNat t = 0 ↔ ∀ c ∈ t, c = '0' := by
  have hfold : ∀ n : Nat, t.foldl (fun n c => n * 10 + (c.toNat - '0'.toNat)) n = 0 ↔
      n = 0 ∧ ∀ c ∈ t, c = '0' := by
    induction t with
    | nil => exact fun n => (and_iff_left fun c hc => absurd hc List.not_mem_nil).symm
    | cons c t ih =>
      intro n
      obtain ⟨hc, ht⟩ := List.forall_mem_cons.mp ht
      have hlow : 48 ≤ c.toNat := of_decide_eq_true (Bool.and_eq_true_iff.mp hc).1
      have hzero : c.toNat = 48 ↔ c = '0' := ⟨fun h => Char.toNat_inj.mp h, fun h => h ▸ rfl⟩
      have hdigit : n * 10 + (c.toNat - '0'.toNat) = 0 ↔ n = 0 ∧ c = '0' := by
        rw [← hzero]
        show n * 10 + (c.toNat - 48) = 0 ↔ _
        omega
      rw [List.foldl_cons, ih ht, hdigit, List.forall_mem_cons, and_assoc]
  rw [toNat, hfold 0]
  exact and_iff_right rfl

end Text

namespace Value

/-! ## Exact values -/

/-- The digits behind a point at the beginning of a text, if there is one. -/
def spanPlaces : Text → Text × Text
  | '.' :: t => Decimal.spanDigits t
  | t => ([], t)

/-- The exact value of a number without its sign: its digits, scaled by its exponent and by the
place of its point. -/
def exactMagnitude? (t : Text) : Option ℚ :=
  let (whole, t) := Decimal.spanDigits t
  let (places, t) := spanPlaces t
  match Decimal.exponent? t with
  | some (exponent, []) =>
    some ((Text.toNat (whole ++ places) : ℚ) * 10 ^ (exponent - places.length))
  | _ => none

/-- The exact value of a number, where `Decimal.read?` gives the nearest double. -/
def exactValue? : Text → Option ℚ
  | '-' :: t => (exactMagnitude? t).map fun x => -x
  | '+' :: t => exactMagnitude? t
  | t => exactMagnitude? t

/-- The number is a zero that is written without an exponent. -/
def IsPlainZero (number : Text) : Prop :=
  exactValue? number = some 0 ∧ 'e' ∉ number ∧ 'E' ∉ number

instance (number : Text) : Decidable (IsPlainZero number) := inferInstanceAs (Decidable (_ ∧ _ ∧ _))

/-! ## Signs -/

/-- The exact value with a sign in front. -/
theorem exactValue?_sign {s m : Text} (hs : IsSign s) (hm : Signless m) : exactValue? (s ++ m) =
    (exactMagnitude? m).map fun x => if s = ['-'] then -x else x := by
  have hself : (exactMagnitude? m).map id = exactMagnitude? m := Option.map_id_apply
  rcases hs with rfl | rfl | rfl
  · rw [List.nil_append, exactValue?]
    · exact hself.symm
    · rintro v rfl
      exact (hm '-' rfl).2 rfl
    · rintro v rfl
      exact (hm '+' rfl).1 rfl
  · exact hself.symm
  · rfl

/-! ## Dimensions without a sign -/

/-- An exponent is read as a whole. -/
theorem exists_exponent? {c : Char} {s digits : Text} (hc : c = 'e' ∨ c = 'E') (hs : IsSign s)
    (hdigits : ∀ d ∈ digits, d.isDigit = true) (hne : digits ≠ []) :
    ∃ n, Decimal.exponent? (c :: (s ++ digits)) = some (n, []) := by
  have hletter : (decide (c = 'e') || decide (c = 'E')) = true := by
    rwa [Bool.or_eq_true, decide_eq_true_eq, decide_eq_true_eq]
  have hspan : Decimal.spanDigits digits = (digits, []) := by
    have hall := spanDigits_digits (r := []) hdigits fun d hd => absurd hd (Option.not_mem_none d)
    rwa [List.append_nil] at hall
  have hempty : digits.isEmpty = false := List.isEmpty_eq_false_iff.mpr hne
  obtain ⟨d, ds, rfl⟩ := List.exists_cons_of_ne_nil hne
  have hd : d.isDigit = true := hdigits d List.mem_cons_self
  have hplus : d ≠ '+' := ne_of_isDigit hd (by decide)
  have hminus : d ≠ '-' := ne_of_isDigit hd (by decide)
  rcases hs with rfl | rfl | rfl <;>
    simp [Decimal.exponent?, hletter, hspan, hplus, hminus]

/-- What is taken for an exponent begins with its letter and has a value. -/
theorem spanExponent_cases {t e rest : Text} (h : spanExponent t = (e, rest)) : t = e ++ rest ∧
    (∃ n, Decimal.exponent? e = some (n, [])) ∧ ∀ c ∈ e.head?, c = 'e' ∨ c = 'E' := by
  have hnone : ∀ {t : Text}, ([], t) = (e, rest) → t = e ++ rest ∧
      (∃ n, Decimal.exponent? e = some (n, [])) ∧ ∀ c ∈ e.head?, c = 'e' ∨ c = 'E' := by
    rintro t heq
    obtain ⟨rfl, rfl⟩ := Prod.mk.inj heq
    exact ⟨rfl, ⟨0, rfl⟩, fun c hc => absurd hc (Option.not_mem_none c)⟩
  cases t with
  | nil => exact hnone h
  | cons c u =>
    rw [spanExponent] at h
    split at h
    next hletter =>
      rw [Bool.or_eq_true, decide_eq_true_eq, decide_eq_true_eq] at hletter
      obtain ⟨hsign, hu⟩ := spanSign_cases u
      have hdigits := Decimal.spanDigits_append (spanSign u).2
      dsimp only at h
      split at h
      next => exact hnone h
      next hne =>
        obtain ⟨rfl, rfl⟩ := Prod.mk.inj h
        refine ⟨?_, ?_, fun x hx => ?_⟩
        · rw [List.cons_append, List.cons_append, List.append_assoc, hdigits, ← hu]
        · exact exists_exponent? hletter hsign (fun d hd => List.mem_takeWhile_imp hd)
            (mt List.isEmpty_iff.mpr hne)
        · obtain rfl : c = x := Option.some.inj hx
          exact hletter
    next => exact hnone h

/-- A dimension is read from its sign to its unit. -/
theorem dimension?_eq_some_iff {v number unit : Text} : dimension? v = some (number, unit) ↔
    ∃ s u digits rest e, spanSign v = (s, u) ∧ unsigned? u = some (digits, rest) ∧
      spanExponent rest = (e, unit) ∧ unitAt unit = unit ∧ number = s ++ (digits ++ e) := by
  rw [dimension?, number?]
  dsimp only
  constructor
  · intro h
    obtain ⟨⟨number', unit'⟩, hnumber, hunit⟩ := Option.bind_eq_some_iff.mp h
    obtain ⟨⟨digits, rest⟩, hdigits, hexponent⟩ := Option.bind_eq_some_iff.mp hnumber
    dsimp only at hunit
    split at hunit
    next hletters =>
      cases hunit
      cases hexponent
      exact ⟨_, _, digits, rest, _, rfl, hdigits, rfl, hletters, List.append_assoc ..⟩
    next => cases hunit
  · rintro ⟨s, u, digits, rest, e, hsign, hdigits, hexponent, hunit, rfl⟩
    rw [hsign]
    dsimp only
    rw [hdigits]
    show (some (s ++ digits ++ (spanExponent rest).1, (spanExponent rest).2)).bind _ = _
    rw [hexponent, Option.bind_some, if_pos hunit, List.append_assoc]

/-- The digits of an unsigned number do not begin with a sign. -/
theorem signless_of_unsigned? {u digits rest : Text} (h : unsigned? u = some (digits, rest))
    (e : Text) : Signless u ∧ Signless (digits ++ e) := by
  obtain ⟨whole, point, places, rfl, rfl, hall, hne, hpoint⟩ := unsigned?_cases h
  have hstarts : ∀ t : Text, Signless (whole ++ (point ++ places) ++ t) := by
    intro t c hc
    have hclass : c.isDigit = true ∨ c = '.' := by
      rcases whole with _ | ⟨d, whole⟩
      · rcases hpoint with ⟨rfl, rfl⟩ | rfl
        · exact absurd rfl hne
        · exact .inr (Option.some.inj hc).symm
      · obtain rfl : d = c := Option.some.inj hc
        exact .inl (hall d List.mem_cons_self)
    rcases hclass with hdigit | rfl
    · exact ⟨ne_of_isDigit hdigit (by decide), ne_of_isDigit hdigit (by decide)⟩
    · decide
  exact ⟨hstarts rest, hstarts e⟩

/-- A dimension is a sign in front of one without a sign. -/
theorem exists_unsigned {v number unit : Text} (h : dimension? v = some (number, unit)) :
    ∃ s u m, IsSign s ∧ v = s ++ u ∧ number = s ++ m ∧ Signless u ∧ Signless m ∧
      dimension? u = some (m, unit) := by
  obtain ⟨s, u, digits, rest, e, hsign, hdigits, hexponent, hunit, rfl⟩ :=
    dimension?_eq_some_iff.mp h
  obtain ⟨hs, hv⟩ := spanSign_cases v
  rw [hsign] at hs hv
  obtain ⟨hu, hm⟩ := signless_of_unsigned? hdigits e
  exact ⟨s, u, digits ++ e, hs, hv, rfl, hu, hm, dimension?_eq_some_iff.mpr
    ⟨[], u, digits, rest, e, spanSign_append (.inl rfl) hu, hdigits, hexponent, hunit, rfl⟩⟩

/-- Any sign may stand in front of a dimension without one. -/
theorem dimension?_sign {s u m unit : Text} (hs : IsSign s) (hu : Signless u)
    (h : dimension? u = some (m, unit)) : dimension? (s ++ u) = some (s ++ m, unit) := by
  obtain ⟨s', u', digits, rest, e, hsign, hdigits, hexponent, hunit, rfl⟩ :=
    dimension?_eq_some_iff.mp h
  have hnone := spanSign_append (.inl rfl) hu
  rw [List.nil_append, hsign] at hnone
  obtain ⟨rfl, rfl⟩ := Prod.mk.inj hnone
  exact dimension?_eq_some_iff.mpr
    ⟨s, u', digits, rest, e, spanSign_append hs hu, hdigits, hexponent, hunit, rfl⟩

/-- Digits and an exponent have an exact value. -/
theorem exactMagnitude?_digits {whole point places e : Text} {n : Int}
    (hdigits : ∀ c ∈ whole ++ places, c.isDigit = true)
    (hpoint : point = [] ∧ places = [] ∨ point = ['.']) (he : ∀ c ∈ e.head?, c = 'e' ∨ c = 'E')
    (hn : Decimal.exponent? e = some (n, [])) :
    exactMagnitude? (whole ++ (point ++ places) ++ e) =
      some ((Text.toNat (whole ++ places) : ℚ) * 10 ^ (n - places.length)) := by
  have hletter : ∀ c ∈ e.head?, c.isDigit = false := by
    intro c hc
    rcases he c hc with rfl | rfl <;> decide
  have hplaces : spanPlaces (point ++ (places ++ e)) = (places, e) ∧
      ∀ c ∈ (point ++ (places ++ e)).head?, c.isDigit = false := by
    rcases hpoint with ⟨rfl, rfl⟩ | rfl
    · refine ⟨?_, hletter⟩
      rw [List.nil_append, List.nil_append, spanPlaces]
      rintro v rfl
      exact absurd (he '.' rfl) (by decide)
    · refine ⟨spanDigits_digits (fun c hc => hdigits c (List.mem_append_right _ hc)) hletter, ?_⟩
      rintro c hc
      rw [← Option.some.inj hc]
      decide
  rw [List.append_assoc, List.append_assoc, exactMagnitude?,
    spanDigits_digits (fun c hc => hdigits c (List.mem_append_left _ hc)) hplaces.2]
  dsimp only
  rw [hplaces.1]
  dsimp only
  rw [hn]

/-- A number without a sign has an exact value, and its characters say whether it is a zero without
an exponent. -/
theorem exactMagnitude?_unsigned {u m unit : Text} (hu : Signless u)
    (h : dimension? u = some (m, unit)) : ∃ x, exactMagnitude? m = some x ∧
      ((∀ c ∈ m, c = '0' ∨ c = '.') ↔ x = 0 ∧ 'e' ∉ m ∧ 'E' ∉ m) := by
  obtain ⟨s, u', digits, rest, e, hsign, hunsigned, hexponent, -, rfl⟩ :=
    dimension?_eq_some_iff.mp h
  have hnone := spanSign_append (.inl rfl) hu
  rw [List.nil_append, hsign] at hnone
  obtain ⟨rfl, rfl⟩ := Prod.mk.inj hnone
  obtain ⟨whole, point, places, rfl, -, hdigits, -, hpoint⟩ := unsigned?_cases hunsigned
  obtain ⟨-, ⟨n, hn⟩, he⟩ := spanExponent_cases hexponent
  refine ⟨_, exactMagnitude?_digits hdigits hpoint he hn, ?_⟩
  have hscale : (10 : ℚ) ^ (n - (places.length : Int)) ≠ 0 := zpow_ne_zero _ (by decide)
  rw [mul_eq_zero, or_iff_left hscale, Nat.cast_eq_zero, Text.toNat_eq_zero_iff hdigits]
  constructor
  · intro hall
    refine ⟨fun c hc => ?_, fun hmem => ?_, fun hmem => ?_⟩
    · have hmem : c ∈ [] ++ (whole ++ (point ++ places) ++ e) := by
        rcases List.mem_append.mp hc with hc | hc <;> simp [hc]
      rcases hall c hmem with h0 | rfl
      · exact h0
      · exact absurd (hdigits '.' hc) (by decide)
    · exact absurd (hall _ hmem) (by decide)
    · exact absurd (hall _ hmem) (by decide)
  · rintro ⟨hzero, hlower, hupper⟩ c hc
    have hnil : e = [] := by
      cases e with
      | nil => rfl
      | cons x e =>
        rcases he x rfl with rfl | rfl
        · exact absurd (by simp) hlower
        · exact absurd (by simp) hupper
    subst hnil
    rw [List.nil_append, List.append_nil] at hc
    rcases List.mem_append.mp hc with hc | hc
    · exact .inl (hzero c (List.mem_append_left _ hc))
    · rcases List.mem_append.mp hc with hc | hc
      · rcases hpoint with ⟨rfl, -⟩ | rfl
        · exact absurd hc List.not_mem_nil
        · exact .inr (List.mem_singleton.mp hc)
      · exact .inl (hzero c (List.mem_append_right _ hc))

/-! ## Flipping the sign -/

theorem dropSigns_append {s u : Text} (hs : IsSign s) (hu : Signless u) : dropSigns (s ++ u) = u := by
  have hsign : ∀ c ∈ s, (decide (c = '+') || decide (c = '-')) = true := by
    rcases hs with rfl | rfl | rfl <;> decide
  rw [dropSigns, List.dropWhile_append_of_pos hsign]
  cases u with
  | nil => rfl
  | cons c u => exact List.dropWhile_cons_of_neg (by simp [hu c rfl])

/-- A zero without an exponent loses its sign. -/
theorem negate_zero {s u m unit : Text} (hs : IsSign s) (hu : Signless u) (hm : Signless m)
    (h : dimension? u = some (m, unit)) (hzero : ∀ c ∈ m, c = '0' ∨ c = '.') :
    negate (s ++ u) = u := by
  have hall : ((dropSigns (s ++ m)).all fun c => decide (c = '0') || decide (c = '.')) = true := by
    rw [dropSigns_append hs hm]
    exact List.all_eq_true.mpr fun c hc => by simpa using hzero c hc
  unfold negate
  rw [dimension?_sign hs hu h]
  dsimp only
  rw [if_pos hall, dropSigns_append hs hu]

/-- Any other dimension has a minus afterwards if it had none. -/
theorem negate_nonzero {s u m unit : Text} (hs : IsSign s) (hu : Signless u) (hm : Signless m)
    (h : dimension? u = some (m, unit)) (hzero : ¬∀ c ∈ m, c = '0' ∨ c = '.') :
    negate (s ++ u) = if s = ['-'] then u else '-' :: u := by
  have hall : ¬((dropSigns (s ++ m)).all fun c => decide (c = '0') || decide (c = '.')) = true := by
    rw [dropSigns_append hs hm]
    exact fun hall => hzero fun c hc => by simpa using List.all_eq_true.mp hall c hc
  have hplus : u.dropWhile (fun c => decide (c = '+')) = u := by
    cases u with
    | nil => rfl
    | cons c u => exact List.dropWhile_cons_of_neg (by simp [(hu c rfl).1])
  unfold negate
  rw [dimension?_sign hs hu h]
  dsimp only
  rw [if_neg hall]
  rcases hs with rfl | rfl | rfl
  · rw [if_neg (List.cons_ne_nil _ _).symm, List.nil_append]
    split
    next v => exact absurd rfl (hu '-' rfl).2
    next => rw [hplus]
  · exact congrArg ('-' :: ·) hplus
  · rfl

/-- A number is a plain zero whatever its sign is. -/
theorem isPlainZero_sign {s u m unit : Text} (hs : IsSign s) (hu : Signless u) (hm : Signless m)
    (h : dimension? u = some (m, unit)) :
    IsPlainZero (s ++ m) ↔ ∀ c ∈ m, c = '0' ∨ c = '.' := by
  obtain ⟨x, hx, hzero⟩ := exactMagnitude?_unsigned hu h
  have hvalue : exactValue? (s ++ m) = some 0 ↔ x = 0 := by
    rw [exactValue?_sign hs hm, hx, Option.map_some, Option.some_inj]
    split
    · exact neg_eq_zero
    · rfl
  have hletter : ∀ c : Char, c ≠ '+' → c ≠ '-' → (c ∉ s ++ m ↔ c ∉ m) := by
    intro c hplus hminus
    rcases hs with rfl | rfl | rfl <;> simp [hplus, hminus]
  rw [hzero, IsPlainZero, hvalue, hletter 'e' (by decide) (by decide),
    hletter 'E' (by decide) (by decide)]

/-- **Negating a dimension takes it to the opposite dimension**: what is written is a number with
the same unit, and its exact value is the opposite one.  A second negation brings the text back,
less a plus, or the minus of a zero without an exponent; such a zero never has a minus
afterwards. -/
theorem negate_dimension {v number unit : Text} (h : dimension? v = some (number, unit)) :
    (∃ x opposite, exactValue? number = some x ∧ dimension? (negate v) = some (opposite, unit) ∧
      exactValue? opposite = some (-x)) ∧
    negate (negate v) =
      (if v.head? = some '+' ∨ v.head? = some '-' ∧ IsPlainZero number then v.tail else v) ∧
    (IsPlainZero number → (negate v).head? ≠ some '-') := by
  obtain ⟨s, u, m, hs, rfl, rfl, hu, hm, hdimension⟩ := exists_unsigned h
  obtain ⟨x, hx, hdigits⟩ := exactMagnitude?_unsigned hu hdimension
  have hplain := isPlainZero_sign hs hu hm hdimension
  have hnone : IsSign [] := .inl rfl
  have hminus : IsSign ['-'] := .inr (.inr rfl)
  have hvalue : ∀ {s' : Text}, IsSign s' →
      exactValue? (s' ++ m) = some (if s' = ['-'] then -x else x) := fun hs' => by
    rw [exactValue?_sign hs' hm, hx, Option.map_some]
  have hhead : u.head? ≠ some '+' ∧ u.head? ≠ some '-' :=
    ⟨fun h => (hu _ h).1 rfl, fun h => (hu _ h).2 rfl⟩
  by_cases hzero : ∀ c ∈ m, c = '0' ∨ c = '.'
  · have hwritten := negate_zero hs hu hm hdimension hzero
    have hagain := negate_zero hnone hu hm hdimension hzero
    rw [List.nil_append] at hagain
    obtain ⟨rfl, -⟩ := hdigits.mp hzero
    refine ⟨⟨_, m, hvalue hs, by rw [hwritten, hdimension], ?_⟩, ?_, fun _ => ?_⟩
    · rw [← List.nil_append m, hvalue hnone]
      simp
    · rw [hwritten, hagain]
      rcases hs with rfl | rfl | rfl
      · rw [List.nil_append, if_neg (by simp [hhead])]
      · rw [if_pos (.inl rfl)]
        rfl
      · rw [if_pos (.inr ⟨rfl, hplain.mpr hzero⟩)]
        rfl
    · rw [hwritten]
      exact hhead.2
  · have hwritten : ∀ {s' : Text}, IsSign s' → negate (s' ++ u) = if s' = ['-'] then u else '-' :: u :=
      fun hs' => negate_nonzero hs' hu hm hdimension hzero
    have hbare : negate u = '-' :: u := hwritten hnone
    have hback : negate ('-' :: u) = u := hwritten hminus
    have hplus : negate ('+' :: u) = '-' :: u := hwritten (.inr (.inl rfl))
    refine ⟨⟨_, if s = ['-'] then m else '-' :: m, hvalue hs, ?_, ?_⟩, ?_,
      fun hz => absurd (hplain.mp hz) hzero⟩
    · rw [hwritten hs]
      split
      · exact hdimension
      · exact dimension?_sign hminus hu hdimension
    · split
      · rw [← List.nil_append m, hvalue hnone]
        simp
      · exact hvalue hminus
    · rcases hs with rfl | rfl | rfl
      · rw [List.nil_append, hbare, hback, if_neg (by simp [hhead])]
      · rw [List.singleton_append, hplus, hback, if_pos (.inl rfl)]
        rfl
      · rw [List.singleton_append, hback, hbare, if_neg]
        rintro (hsign | ⟨-, hz⟩)
        · exact absurd (Option.some.inj hsign) (by decide)
        · exact hzero (hplain.mp hz)

/-- A number with all there can be to it, the unit beginning like an exponent. -/
theorem negate_dimension_full : dimension? "+.50e-03em" = some ("+.50e-03".toList, "em".toList) ∧
    (∃ x opposite, exactValue? "+.50e-03" = some x ∧
      dimension? (negate "+.50e-03em") = some (opposite, "em".toList) ∧
      exactValue? opposite = some (-x)) ∧
    negate (negate "+.50e-03em") = ".50e-03em" := by
  have h : dimension? "+.50e-03em" = some ("+.50e-03".toList, "em".toList) := by decide
  exact ⟨h, (negate_dimension h).1, (negate_dimension h).2.1⟩

end Value
end UtilityCss
