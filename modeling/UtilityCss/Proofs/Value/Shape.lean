import Mathlib.Data.List.TakeWhile
import UtilityCss.Proofs.Bracketed
import UtilityCss.Proofs.Keyed
import UtilityCss.Proofs.Registry.Selector
import UtilityCss.Proofs.Value.Numeral
import UtilityCss.Value.Kind

/-!
# What values look like

Each of the recognizers of values looks for something else in a text: a dimension begins like a
number, arithmetic with the name of a function, a color with a hash, the name of a function or its
own name, and a list of families holds commas or quotes.  What is recognized is described here by
its beginning and its characters, which is enough to tell values of different kinds apart.
-/

namespace UtilityCss

namespace Value

/-! ## Dimensions -/

/-- May a dimension begin with the character? -/
def startsDimension (c : Char) : Bool := c.isDigit || c = '+' || c = '-' || c = '.'

/-- May the character be part of a dimension? -/
def isDimensionChar (c : Char) : Bool := startsDimension c || c.isAlpha || c = '%'

theorem spanSign_spec (t : Text) : t = (spanSign t).1 ++ (spanSign t).2 ∧
    ∀ c ∈ (spanSign t).1, startsDimension c = true := by
  obtain ⟨hsign, ht⟩ := spanSign_cases t
  refine ⟨ht, ?_⟩
  rcases hsign with h | h | h <;> rw [h] <;> decide

theorem spanDigits_spec (t : Text) :
    t = (Decimal.spanDigits t).1 ++ (Decimal.spanDigits t).2 ∧
      ∀ c ∈ (Decimal.spanDigits t).1, startsDimension c = true :=
  ⟨(Decimal.spanDigits_append t).symm, fun c hc => by
    have hdigit : c.isDigit = true := List.mem_takeWhile_imp hc
    rw [startsDimension, hdigit]
    rfl⟩

/-- The digits of an unsigned number are a run of digits, and perhaps another one behind a
point. -/
theorem unsigned?_cases {t digits rest : Text} (h : unsigned? t = some (digits, rest)) :
    ∃ whole point places, digits = whole ++ (point ++ places) ∧ t = digits ++ rest ∧
      (∀ c ∈ whole ++ places, c.isDigit = true) ∧ whole ++ places ≠ [] ∧
      (point = [] ∧ places = [] ∨ point = ['.']) := by
  have hdigits : ∀ u : Text, ∀ c ∈ (Decimal.spanDigits u).1, c.isDigit = true :=
    fun u c hc => List.mem_takeWhile_imp hc
  have hwhole := Decimal.spanDigits_append t
  unfold unsigned? at h
  dsimp only at h
  split at h
  next u hu =>
    have hplaces := Decimal.spanDigits_append u
    split at h
    next => cases h
    next hne =>
      cases h
      refine ⟨(Decimal.spanDigits t).1, ['.'], (Decimal.spanDigits u).1, rfl, ?_, ?_, ?_, .inr rfl⟩
      · rw [List.append_assoc, List.cons_append, hplaces, ← hu, hwhole]
      · exact fun c hc => (List.mem_append.mp hc).elim (hdigits t c) (hdigits u c)
      · intro hnil
        obtain ⟨hw, hp⟩ := List.append_eq_nil_iff.mp hnil
        rw [hw, hp] at hne
        exact hne rfl
  next =>
    split at h
    next => cases h
    next hne =>
      cases h
      refine ⟨(Decimal.spanDigits t).1, [], [], by simp, hwhole.symm, ?_, ?_, .inl ⟨rfl, rfl⟩⟩
      · rw [List.append_nil]
        exact hdigits t
      · rw [List.append_nil]
        exact mt List.isEmpty_iff.mpr hne

theorem unsigned?_spec {t digits rest : Text} (h : unsigned? t = some (digits, rest)) :
    t = digits ++ rest ∧ digits ≠ [] ∧ ∀ c ∈ digits, startsDimension c = true := by
  obtain ⟨whole, point, places, rfl, ht, hdigits, hne, hpoint⟩ := unsigned?_cases h
  have hstarts : ∀ c ∈ whole ++ places, startsDimension c = true := fun c hc => by
    rw [startsDimension, hdigits c hc]
    rfl
  refine ⟨ht, fun hnil => hne ?_, fun c hc => ?_⟩
  · obtain ⟨hwhole, hrest⟩ := List.append_eq_nil_iff.mp hnil
    rw [hwhole, (List.append_eq_nil_iff.mp hrest).2]
    rfl
  · rcases List.mem_append.mp hc with hc | hc
    · exact hstarts c (List.mem_append_left _ hc)
    · rcases List.mem_append.mp hc with hc | hc
      · rcases hpoint with ⟨rfl, -⟩ | rfl
        · exact absurd hc List.not_mem_nil
        · rw [List.mem_singleton.mp hc]
          decide
      · exact hstarts c (List.mem_append_right _ hc)

theorem spanExponent_spec (t : Text) : t = (spanExponent t).1 ++ (spanExponent t).2 ∧
    ∀ c ∈ (spanExponent t).1, isDimensionChar c = true := by
  have hstarts : ∀ {u : Text}, (∀ c ∈ u, startsDimension c = true) →
      ∀ c ∈ u, isDimensionChar c = true := fun hu c hc => by
    rw [isDimensionChar, hu c hc]
    rfl
  unfold spanExponent
  split
  · exact ⟨rfl, fun c hc => absurd hc List.not_mem_nil⟩
  · rename_i e u
    split
    · rename_i he
      obtain ⟨hsign, hsigns⟩ := spanSign_spec u
      obtain ⟨hexp, hdigits⟩ := spanDigits_spec (spanSign u).2
      dsimp only
      split
      · exact ⟨rfl, fun c hc => absurd hc List.not_mem_nil⟩
      · refine ⟨?_, fun c hc => ?_⟩
        · show e :: u = e :: ((spanSign u).1 ++ _) ++ _
          rw [List.cons_append, List.append_assoc, ← hexp, ← hsign]
        · rcases List.mem_append.mp hc with hc | hc
          · rcases List.mem_cons.mp hc with rfl | hc
            · simp only [Bool.or_eq_true, decide_eq_true_eq] at he
              rcases he with rfl | rfl <;> decide
            · exact hstarts hsigns c hc
          · exact hstarts hdigits c hc
    · exact ⟨rfl, fun c hc => absurd hc List.not_mem_nil⟩

/-- A number begins with a digit, a point or a sign, and holds the letter of an exponent at
most besides. -/
theorem number?_spec {t number rest : Text} (h : number? t = some (number, rest)) :
    t = number ++ rest ∧ (∃ c u, number = c :: u ∧ startsDimension c = true) ∧
      ∀ c ∈ number, isDimensionChar c = true := by
  obtain ⟨hsign, hsigns⟩ := spanSign_spec t
  unfold number? at h
  dsimp only at h
  obtain ⟨⟨digits, u⟩, hunsigned, h⟩ := Option.bind_eq_some_iff.mp h
  obtain ⟨hdigits, hne, hall⟩ := unsigned?_spec hunsigned
  obtain ⟨hexponent, hexponents⟩ := spanExponent_spec u
  cases h
  have hfront : ∀ c ∈ (spanSign t).1 ++ digits, startsDimension c = true := fun c hc =>
    (List.mem_append.mp hc).elim (hsigns c) (hall c)
  refine ⟨?_, ?_, fun c hc => ?_⟩
  · rw [List.append_assoc, List.append_assoc, ← hexponent, ← hdigits, ← hsign]
  · obtain ⟨c, v, hv⟩ := List.exists_cons_of_ne_nil
      (List.append_ne_nil_of_right_ne_nil (spanSign t).1 hne)
    exact ⟨c, v ++ (spanExponent u).1, by rw [hv, List.cons_append], hfront c (by
      rw [hv]
      exact List.mem_cons_self)⟩
  · rcases List.mem_append.mp hc with hc | hc
    · rw [isDimensionChar, hfront c hc]
      rfl
    · exact hexponents c hc

/-- A dimension is a number and a unit of letters. -/
theorem dimension?_spec {t : Text} (h : dimension? t ≠ none) :
    (∃ c u, t = c :: u ∧ startsDimension c = true) ∧ ∀ c ∈ t, isDimensionChar c = true := by
  obtain ⟨p, hp⟩ := Option.ne_none_iff_exists'.mp h
  obtain ⟨⟨number, rest⟩, hnumber, hunit⟩ := Option.bind_eq_some_iff.mp hp
  dsimp only at hunit
  obtain ⟨rfl, ⟨c, u, rfl, hc⟩, hall⟩ := number?_spec hnumber
  refine ⟨⟨c, u ++ rest, rfl, hc⟩, fun x hx => ?_⟩
  rcases List.mem_append.mp hx with hx | hx
  · exact hall x hx
  · split at hunit
    · rename_i hrest
      rw [← hrest] at hx
      unfold unitAt at hx
      split at hx
      · rw [List.mem_singleton.mp hx]
        decide
      · have hletter : x.isAlpha = true := List.mem_takeWhile_imp hx
        rw [isDimensionChar, hletter, Bool.or_true]
        rfl
    · cases hunit

/-- What may be part of a dimension means nothing where texts are split. -/
theorem plain_of_isDimensionChar {c : Char} (h : isDimensionChar c = true) :
    Brackets.isPlain c = true ∧ Text.isBlank c = false ∧ c ≠ ',' ∧ c ≠ '/' := by
  simp only [isDimensionChar, startsDimension, Bool.or_eq_true, decide_eq_true_eq] at h
  have hnamed : Bracketed.isNamed c = true → c ≠ ',' → Brackets.isPlain c = true ∧
      Text.isBlank c = false ∧ c ≠ ',' ∧ c ≠ '/' := fun hc hcomma => by
    obtain ⟨hplain, hslash, -, hblank⟩ := Bracketed.isPlain_of_isNamed hc
    exact ⟨hplain, hblank, hcomma, hslash⟩
  have halnum : c.isAlphanum = true → Brackets.isPlain c = true ∧ Text.isBlank c = false ∧
      c ≠ ',' ∧ c ≠ '/' := fun hc => by
    refine hnamed (by rw [Bracketed.isNamed, hc]; rfl) ?_
    rintro rfl
    exact absurd hc (by decide)
  rcases h with ((((hdigit | rfl) | rfl) | rfl) | hletter) | rfl
  · exact halnum (by rw [Char.isAlphanum, hdigit, Bool.or_true])
  · decide
  · decide
  · decide
  · exact halnum (by rw [Char.isAlphanum, hletter, Bool.true_or])
  · decide

/-! ## Calls -/

/-- Arithmetic begins with the name of its function. -/
theorem isMathFunction_spec {t : Text} (h : isMathFunction t = true) :
    ∃ name ∈ mathFunctions, ∃ u, t = name ++ '(' :: u := by
  obtain ⟨name, hname, hmath⟩ := (Option.any_eq_true _ _).mp h
  refine ⟨name, of_decide_eq_true hmath, ?_⟩
  unfold functionName? at hname
  split at hname
  · rename_i own u hcut
    split at hname
    · cases hname
      obtain ⟨c, hc, -, rfl⟩ := Text.cutAt?_eq_some_iff.mp hcut
      exact ⟨u, by rw [of_decide_eq_true hc]⟩
    · cases hname
  · cases hname

/-! ## Colors -/

/-- The words that are colors. -/
def colorWords : List Text := "transparent".toList :: "currentcolor".toList :: namedColors.map Prod.fst

/-- How a color is written: hexadecimal, as a call, or as a word. -/
inductive ColorShape (t : Text) (color : Color) : Prop where
  | hex (u : Text) : t = '#' :: u → Color.ofHex u = .ok color → ColorShape t color
  | call (name u : Text) : name ∈ colorFunctions → Text.toLower t = name ++ '(' :: u →
    Color.ofCall name (t.drop name.length) = .ok color → ColorShape t color
  | word : Text.toLower t ∈ colorWords → ColorShape t color

theorem colorShape_of_read {t : Text} {color : Color} (htrim : Text.trim t = t)
    (h : Color.read t = .ok color) : ColorShape t color := by
  unfold Color.read at h
  simp only [htrim] at h
  split at h
  · cases h
  · split at h
    · rename_i hword
      exact .word (by rw [hword]; exact List.mem_cons_self)
    · split at h
      · rename_i hword
        exact .word (by rw [hword]; exact List.mem_cons_of_mem _ List.mem_cons_self)
      · split at h
        · exact .hex _ rfl h
        · split at h
          · rename_i name u hcut
            split at h
            · rename_i hname
              obtain ⟨c, hc, -, hlower⟩ := Text.cutAt?_eq_some_iff.mp hcut
              exact .call name u hname (by rw [hlower, of_decide_eq_true hc]) h
            · cases h
          · split at h
            · rename_i r g b hlookup
              exact .word (List.mem_cons_of_mem _ (List.mem_cons_of_mem _
                (List.mem_map.mpr ⟨_, Keyed.mem_of_lookup hlookup, rfl⟩)))
            · cases h

theorem isColor_spec {t : Text} (htrim : Text.trim t = t) (h : isColor t = true) :
    ∃ color, ColorShape t color := by
  unfold isColor at h
  split at h
  · exact ⟨_, colorShape_of_read htrim ‹_›⟩
  · cases h

end Value
end UtilityCss
