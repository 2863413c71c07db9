import UtilityCss.Proofs.Context.Declaration
import UtilityCss.Proofs.Split
import UtilityCss.Proofs.Value.Apart

/-!
# Colors without channels

A color that is written in hexadecimal or by its name is a word of letters and digits, with or
without a hash in front.  A bracket holds such a word as it is, nothing in it is looked for by what
prepares bracketed values, and it is none of the images, addresses, positions and sizes that a
background takes as well.
-/

namespace UtilityCss
namespace Value

/-- The text is a color, and no call: it is written in hexadecimal or is the name of one. -/
structure IsPlainColor (t : Text) : Prop where
  trim : Text.trim t = t
  read : ∃ color, Color.read t = .ok color ∧ ∀ name channels, color ≠ .function name channels

/-! ## Their characters -/

/-- May the character be part of such a color? -/
def isColorChar (c : Char) : Bool := c = '#' || c.isAlphanum

theorem isAlphanum_of_hexDigit? {c : Char} (h : (Json.hexDigit? c).isSome = true) :
    c.isAlphanum = true := by
  unfold Json.hexDigit? at h
  split at h
  · rename_i hdigit
    show (_ || c.isDigit) = true
    rw [hdigit, Bool.or_true]
  · split at h
    · rename_i hsmall
      refine isAlphanum_of_isLower (Bool.and_eq_true_iff.mpr
        ⟨decide_eq_true hsmall.1, decide_eq_true (Nat.le_trans hsmall.2 (by decide))⟩)
    · split at h
      · rename_i hcapital
        have hupper : c.isUpper = true :=
          decide_eq_true ⟨hcapital.1, Nat.le_trans hcapital.2 (by decide)⟩
        show ((c.isUpper || _) || _) = true
        rw [hupper]
        rfl
      · cases h

/-- What has small letters only in small letters is made of letters. -/
theorem isAlphanum_of_toLower {c : Char} (h : c.toLower.isLower = true) : c.isAlphanum = true := by
  cases hupper : c.isUpper with
  | true =>
    show ((c.isUpper || _) || _) = true
    rw [hupper]
    rfl
  | false =>
    rw [toLower_eq_self hupper] at h
    exact isAlphanum_of_isLower h

theorem isSome_of_mapM {α β : Type} {f : α → Option β} : ∀ {as : List α} {bs : List β},
    as.mapM f = some bs → ∀ a ∈ as, (f a).isSome = true
  | [], _, _ => fun a ha => absurd ha List.not_mem_nil
  | a :: as, bs, h => by
    rw [List.mapM_cons] at h
    obtain ⟨b, hb, hrest⟩ := Option.bind_eq_some_iff.mp h
    obtain ⟨rest, hmap, -⟩ := Option.bind_eq_some_iff.mp hrest
    exact List.forall_mem_cons.mpr ⟨by rw [hb]; rfl, isSome_of_mapM hmap⟩

theorem isAlphanum_of_ofHex {u : Text} {color : Color} (h : Color.ofHex u = .ok color) :
    ∀ c ∈ u, c.isAlphanum = true := by
  unfold Color.ofHex at h
  cases hdigits : u.mapM Json.hexDigit? with
  | none => rw [hdigits] at h; cases h
  | some values => exact fun c hc => isAlphanum_of_hexDigit? (isSome_of_mapM hdigits c hc)

/-- A call makes a color with channels. -/
theorem exists_of_ofCall {name arguments : Text} {color : Color}
    (h : Color.ofCall name arguments = .ok color) :
    ∃ name channels, color = .function name channels := by
  unfold Color.ofCall at h
  dsimp only at h
  split at h
  · cases h
  · split at h
    · split at h
      · cases h
      · cases h
        exact ⟨_, _, rfl⟩
    · split at h
      · cases h
      · cases h
        exact ⟨_, _, rfl⟩

namespace IsPlainColor

variable {t : Text}

theorem ne_nil (h : IsPlainColor t) : t ≠ [] := by
  rintro rfl
  obtain ⟨color, hread, -⟩ := h.read
  cases hread

theorem isColor (h : IsPlainColor t) : Value.isColor t = true := by
  obtain ⟨color, hread, -⟩ := h.read
  rw [Value.isColor, hread]

theorem isColorChar_of_mem (h : IsPlainColor t) : ∀ c ∈ t, isColorChar c = true := by
  have halnum : ∀ {c : Char}, c.isAlphanum = true → isColorChar c = true := fun hc => by
    rw [isColorChar, hc, Bool.or_true]
  obtain ⟨color, hread, hcall⟩ := h.read
  rcases colorShape_of_read h.trim hread with ⟨u, rfl, hhex⟩ | ⟨name, u, -, -, hof⟩ | hword
  · exact List.forall_mem_cons.mpr ⟨rfl, fun c hc => halnum (isAlphanum_of_ofHex hhex c hc)⟩
  · obtain ⟨own, channels, rfl⟩ := exists_of_ofCall hof
    exact absurd rfl (hcall own channels)
  · intro c hc
    refine halnum (isAlphanum_of_toLower ?_)
    exact List.all_eq_true.mp (IsLowerWord.colorWords _ hword).2 _ (List.mem_map_of_mem hc)

theorem not_mem (h : IsPlainColor t) {c : Char} (hc : isColorChar c = false) : c ∉ t :=
  fun hmem => Bool.false_ne_true (hc.symm.trans (h.isColorChar_of_mem c hmem))

/-- Nothing in it means anything to a scanner, and no blank is in it. -/
theorem plain_of_mem (h : IsPlainColor t) : ∀ c ∈ t,
    Brackets.isPlain c = true ∧ c ≠ '/' ∧ c ≠ ',' ∧ Text.isBlank c = false := by
  intro c hc
  have hchar := h.isColorChar_of_mem c hc
  rw [isColorChar, Bool.or_eq_true, decide_eq_true_eq] at hchar
  rcases hchar with rfl | halnum
  · decide
  · have hnamed : Bracketed.isNamed c = true := by rw [Bracketed.isNamed, halnum]; rfl
    obtain ⟨hplain, hslash, -, hblank⟩ := Bracketed.isPlain_of_isNamed hnamed
    refine ⟨hplain, hslash, ?_, hblank⟩
    rintro rfl
    exact absurd halnum (by decide)

/-- The bracket around it closes behind it. -/
theorem sealed (h : IsPlainColor t) : Brackets.Sealed false t := by
  have hnested := Brackets.Nested.run (t := t) (u := [])
    (fun c hc => ⟨(h.plain_of_mem c hc).1, (h.plain_of_mem c hc).2.1⟩) .nil
  rw [List.append_nil] at hnested
  exact hnested.sealed

theorem includes_eq_false (h : IsPlainColor t) (part : Text) {c : Char} (hc : c ∈ part)
    (hchar : isColorChar c = false) : Text.includes t part = false := by
  unfold Text.includes
  cases hcut : Text.cutAround? part t with
  | none => rfl
  | some p =>
    refine absurd ?_ (h.not_mem hchar)
    rw [Text.cutAround?_eq_append hcut]
    exact List.mem_append_left _ (List.mem_append_right _ hc)

/-- A bracket with the color in it stands for the color. -/
theorem bracketed_value (h : IsPlainColor t) (theme : Theme) : Bracketed.value theme t = t := by
  have hspelled : Bracketed.spelled t = t := by
    have hself : ∀ c ∈ t, Bracketed.spell c = [c] := fun c hc =>
      Bracketed.spell_of_class (h.isColorChar_of_mem c hc) (by decide) (by decide)
    rw [Bracketed.spelled, List.flatMap_congr hself, List.flatMap_singleton']
  have hmath : CallsNoMath t := by
    rintro before rest rfl
    exact absurd (List.mem_append_right before List.mem_cons_self) (h.not_mem (by decide))
  have hvalue := Bracketed.value_spelled theme (h.not_mem (by decide))
    (h.includes_eq_false "url(" (c := '(') (by decide) (by decide))
    (h.includes_eq_false "theme(" (c := '(') (by decide) (by decide)) hmath
  rwa [hspelled] at hvalue

/-- It has no tag. -/
theorem splitTag?_eq_none (h : IsPlainColor t) : splitTag? t = none := by
  unfold splitTag?
  cases hcut : Text.cutAt? (· = ':') t with
  | none => rfl
  | some p =>
    obtain ⟨c, hc, -, rfl⟩ := Text.cutAt?_eq_some_iff.mp hcut
    refine absurd ?_ (h.not_mem (c := ':') (by decide))
    rw [← of_decide_eq_true hc]
    exact List.mem_append_right _ List.mem_cons_self

/-! ## Kinds it is not of -/

/-- It is one layer. -/
theorem allLayers_eq (h : IsPlainColor t) (p : Text → Bool) : allLayers p t = p t := by
  have hparts : Split.atChar ',' t = [t] := Split.atTop_eq_singleton_iff.mpr <|
    Split.whole_of_forall fun c hc => decide_eq_false (h.plain_of_mem c hc).2.2.1
  have hne : t.isEmpty = false := List.isEmpty_eq_false_iff.mpr h.ne_nil
  rw [allLayers, layers?, hparts]
  simp only [List.map_cons, List.map_nil, h.trim, List.all_cons, List.all_nil, hne, Bool.not_false,
    Bool.and_self, if_true, Option.any_some, Bool.and_true]

/-- It is one term. -/
theorem terms_eq (h : IsPlainColor t) : Split.terms t = [t] :=
  Split.terms_eq_singleton h.ne_nil <|
    Split.whole_of_forall fun c hc => (h.plain_of_mem c hc).2.2.2

/-- It is no call. -/
theorem cutAt?_paren (h : IsPlainColor t) : Text.cutAt? (· = '(') t = none := by
  cases hcut : Text.cutAt? (· = '(') t with
  | none => rfl
  | some p =>
    obtain ⟨c, hc, -, rfl⟩ := Text.cutAt?_eq_some_iff.mp hcut
    refine absurd ?_ (h.not_mem (c := '(') (by decide))
    rw [← of_decide_eq_true hc]
    exact List.mem_append_right _ List.mem_cons_self

theorem isLengthPercentage_eq_false (h : IsPlainColor t) : isLengthPercentage t = false := by
  obtain ⟨hdimension, hmath⟩ := not_measure_of_isColor h.trim h.isColor
  have hreference : isReference t = false := by
    rw [isReference, functionName?, h.cutAt?_paren]
    rfl
  have hlength : isLength t = false := Bool.eq_false_iff.mpr fun hlength =>
    (measure_of_isLength hlength).elim (· hdimension) fun h => by rw [hmath] at h; cases h
  have hpercentage : isPercentage t = false := Bool.eq_false_iff.mpr fun hpercentage =>
    (measure_of_isPercentage hpercentage).elim (· hdimension) fun h => by rw [hmath] at h; cases h
  rw [isLengthPercentage, hlength, hpercentage, hreference]
  rfl

/-- A word that is no color is another one. -/
theorem ne_of_mem_measureWords (h : IsPlainColor t) (word : Text) (hword : word ∈ measureWords) :
    t ≠ word := by
  rintro rfl
  have hcolor := isColor_of_mem_measureWords t hword
  rw [h.isColor] at hcolor
  cases hcolor

theorem accepts (h : IsPlainColor t) : Kind.color.accepts t false = true :=
  Kind.accepts_iff.mpr ⟨h.trim.symm ▸ h.ne_nil, h.trim.symm ▸ h.isColor⟩

/-- The kinds that a background takes besides colors. -/
theorem not_accepts (h : IsPlainColor t) : ∀ kind ∈ [Kind.image, .url, .backgroundPosition,
    .backgroundSize, .length, .percentage], kind.accepts t false = false := by
  have hcolor := h.accepts
  have haccepts : ∀ {kind : Kind}, kind.fits t = false → kind.accepts t false = false := by
    intro kind hfits
    rw [Kind.accepts, h.trim, hfits, Bool.or_false, Bool.and_false]
  have hmeasure := h.isLengthPercentage_eq_false
  have hword : ∀ word ∈ measureWords, decide (t = word) = false :=
    fun word hword => decide_eq_false (h.ne_of_mem_measureWords word hword)
  simp only [List.forall_mem_cons]
  refine ⟨haccepts ?image, haccepts ?url, haccepts ?position, haccepts ?size,
    color_apart_length _ hcolor, color_apart_percentage _ hcolor,
    fun _ hmem => absurd hmem List.not_mem_nil⟩
  case image =>
    show allLayers isImageLayer t = false
    rw [h.allLayers_eq, isImageLayer, h.cutAt?_paren]
  case url =>
    show (Text.startsWith t "url(" && _) = false
    rw [Bool.and_eq_false_imp]
    intro hstarts
    obtain ⟨u, rfl⟩ := Text.startsWith_iff.mp hstarts
    exact absurd (List.mem_append_left u (by decide)) (h.not_mem (c := '(') (by decide))
  case position =>
    have hread : PositionTerm.read? t = none := by
      rw [PositionTerm.read?, hword "left" (by decide), hword "right" (by decide),
        hword "top" (by decide), hword "bottom" (by decide),
        if_neg (h.ne_of_mem_measureWords "center" (by decide)), hmeasure]
      rfl
    show allLayers isPositionLayer t = false
    rw [h.allLayers_eq, isPositionLayer, h.terms_eq, List.mapM_cons, hread]
    rfl
  case size =>
    have hterm : (decide (t = "auto") || isLengthPercentage t) = false := by
      rw [hword "auto" (by decide), hmeasure]
      rfl
    show allLayers isSizeLayer t = false
    rw [h.allLayers_eq, isSizeLayer, hword "cover" (by decide),
      hword "contain" (by decide), h.terms_eq]
    simp only [List.all_cons, hterm, Bool.false_and, Bool.and_false]
    rfl

end IsPlainColor

end Value
end UtilityCss
