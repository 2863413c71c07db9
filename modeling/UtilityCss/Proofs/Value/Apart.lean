import UtilityCss.Proofs.Value.Shape

/-!
# Kinds that no value shares

Two kinds are apart if there is no text that both accept unasked.  A color begins with a letter or
a hash, and a dimension with neither; a call is of one function only, which makes a color or does
arithmetic.  Arithmetic has a parenthesis outside of quotes, which no family does.
-/

namespace UtilityCss
namespace Value
namespace Kind

/-- No text is accepted by both kinds. -/
def Apart (k l : Kind) : Prop := ∀ t, k.accepts t false = true → l.accepts t false = false

theorem accepts_iff {k : Kind} {t : Text} : k.accepts t false = true ↔
    Text.trim t ≠ [] ∧ k.fits (Text.trim t) = true := by
  rw [accepts, Bool.and_eq_true, Bool.false_or, Bool.not_eq_true', List.isEmpty_eq_false_iff]

theorem Apart.symm {k l : Kind} (h : k.Apart l) : l.Apart k := fun t hl => by
  by_contra hk
  rw [h t (Bool.not_eq_false _ ▸ hk)] at hl
  exact Bool.noConfusion hl

/-- Only texts without blanks around them matter. -/
theorem Apart.of_fits {k l : Kind}
    (h : ∀ t, Text.trim t = t → k.fits t = true → l.fits t = true → False) : k.Apart l := by
  intro t hk
  rw [← Bool.not_eq_true]
  intro hl
  exact h _ (Text.trim_trim t) (accepts_iff.mp hk).2 (accepts_iff.mp hl).2

end Kind

/-! ## Colors and measures -/

theorem toLower_eq_self {c : Char} (h : c.isUpper = false) : c.toLower = c :=
  dif_neg (of_decide_eq_false h)

theorem isUpper_of_isLower {c : Char} (h : c.isLower = true) : c.isUpper = false := by
  have hlower : 97 ≤ c.val.toNat := of_decide_eq_true (Bool.and_eq_true_iff.mp h).1
  refine decide_eq_false ?_
  rintro ⟨-, hle⟩
  have hupper : c.val.toNat ≤ 90 := hle
  omega

theorem isAlphanum_of_isLower {c : Char} (h : c.isLower = true) : c.isAlphanum = true := by
  show ((c.isUpper || c.isLower) || c.isDigit) = true
  rw [h, Bool.or_true, Bool.true_or]

/-- A digit is no letter. -/
theorem not_letter_of_isDigit {c : Char} (h : c.isDigit = true) :
    c.isUpper = false ∧ c.isLower = false := by
  have hdigit : c.val.toNat ≤ 57 := of_decide_eq_true (Bool.and_eq_true_iff.mp h).2
  constructor
  · refine decide_eq_false ?_
    rintro ⟨hle, -⟩
    have hupper : 65 ≤ c.val.toNat := hle
    omega
  · refine Bool.eq_false_iff.mpr fun hlower => ?_
    have hle : 97 ≤ c.val.toNat := of_decide_eq_true (Bool.and_eq_true_iff.mp hlower).1
    omega

/-- The text is made of small letters, as the names of functions and colors are. -/
def IsLowerWord (t : Text) : Prop := t ≠ [] ∧ t.all Char.isLower = true

namespace IsLowerWord

variable {t : Text}

theorem mathFunctions : ∀ name ∈ Value.mathFunctions, IsLowerWord name := by
  unfold IsLowerWord
  decide

theorem colorFunctions : ∀ name ∈ Value.colorFunctions, IsLowerWord name := by
  unfold IsLowerWord
  decide

theorem colorWords : ∀ word ∈ Value.colorWords, IsLowerWord word := by
  unfold IsLowerWord
  decide +kernel

theorem not_mem (h : IsLowerWord t) {c : Char} (hc : c.isLower = false) : c ∉ t := fun hmem => by
  have hlower := List.all_eq_true.mp h.2 c hmem
  rw [hc] at hlower
  exact Bool.noConfusion hlower

theorem head (h : IsLowerWord t) {c : Char} {u v : Text} (heq : t ++ u = c :: v) :
    c.isLower = true := by
  obtain ⟨x, w, rfl⟩ := List.exists_cons_of_ne_nil h.1
  obtain ⟨rfl, -⟩ := List.cons.inj heq
  exact List.all_eq_true.mp h.2 x List.mem_cons_self

theorem toLower (h : IsLowerWord t) : Text.toLower t = t := by
  have hself : ∀ c ∈ t, c.toLower = id c := fun c hc =>
    toLower_eq_self (isUpper_of_isLower (List.all_eq_true.mp h.2 c hc))
  exact (List.map_congr_left hself).trans (List.map_id t)

end IsLowerWord

theorem toLower_of_startsDimension {c : Char} (h : startsDimension c = true) :
    c.toLower.isLower = false ∧ c ≠ '#' := by
  simp only [startsDimension, Bool.or_eq_true, decide_eq_true_eq] at h
  rcases h with ((h | rfl) | rfl) | rfl
  · obtain ⟨hupper, hlower⟩ := not_letter_of_isDigit h
    rw [toLower_eq_self hupper]
    exact ⟨hlower, by rintro rfl; exact absurd h (by decide)⟩
  · decide
  · decide
  · decide

theorem functions_disjoint : ∀ name ∈ mathFunctions, name ∉ colorFunctions := by decide

/-- A color measures nothing. -/
theorem not_measure_of_isColor {t : Text} (htrim : Text.trim t = t) (h : isColor t = true) :
    dimension? t = none ∧ isMathFunction t = false := by
  obtain ⟨_, hshape⟩ := isColor_spec htrim h
  constructor
  · by_contra hdimension
    obtain ⟨⟨c, u, rfl, hc⟩, -⟩ := dimension?_spec hdimension
    obtain ⟨hlower, hhash⟩ := toLower_of_startsDimension hc
    have hname : ∀ {name v : Text}, IsLowerWord name → name ++ v ≠ Text.toLower (c :: u) :=
      fun hword heq => Bool.false_ne_true (hlower.symm.trans (hword.head heq))
    rcases hshape with ⟨v, heq, -⟩ | ⟨name, v, hmem, heq, -⟩ | hmem
    · exact hhash (List.cons.inj heq).1
    · exact hname (.colorFunctions name hmem) heq.symm
    · exact hname (.colorWords _ hmem) (List.append_nil _)
  · rw [← Bool.not_eq_true]
    intro hmath
    obtain ⟨name, hname, u, rfl⟩ := isMathFunction_spec hmath
    have hword := IsLowerWord.mathFunctions name hname
    have hparen : ∀ {word : Text} {x : Char}, IsLowerWord word → x ∈ word →
        (fun c : Char => decide (c = '(')) x = false := fun hword hx => by
      refine decide_eq_false ?_
      rintro rfl
      exact hword.not_mem rfl hx
    have hlower : Text.toLower (name ++ '(' :: u) = name ++ '(' :: Text.toLower u := by
      show List.map _ _ = _
      rw [List.map_append]
      exact congrArg (· ++ _) hword.toLower
    rcases hshape with ⟨v, heq, -⟩ | ⟨own, v, hmem, heq, -⟩ | hmem
    · exact absurd (hword.head heq) (by decide)
    · have hown := Text.cutAt?_eq_some_iff.mpr
        ⟨'(', rfl, fun x hx => hparen (.colorFunctions own hmem) hx, heq⟩
      have hcut := Text.cutAt?_eq_some_iff.mpr
        ⟨'(', rfl, fun x hx => hparen hword hx, hlower⟩
      obtain ⟨rfl, -⟩ := Prod.mk.inj (Option.some.inj (hcut.symm.trans hown))
      exact functions_disjoint name hname hmem
    · rw [hlower] at hmem
      exact (IsLowerWord.colorWords _ hmem).not_mem (c := '(') rfl (by simp)

theorem color_apart {k : Kind} (h : ∀ t, Text.trim t = t → k.fits t = true →
    dimension? t ≠ none ∨ isMathFunction t = true ∨ isColor t = false) : Kind.Apart .color k := by
  refine .of_fits fun t htrim hcolor hk => ?_
  have hcolor : isColor t = true := hcolor
  obtain ⟨hdimension, hmath⟩ := not_measure_of_isColor htrim hcolor
  rcases h t htrim hk with hmeasure | hmeasure | hmeasure
  · exact hmeasure hdimension
  · rw [hmath] at hmeasure
    exact Bool.noConfusion hmeasure
  · rw [hcolor] at hmeasure
    exact Bool.noConfusion hmeasure

theorem dimension_of_class {c : UnitClass} {t : Text} (h : (dimensionClass? t == some c) = true) :
    dimension? t ≠ none := fun hnone => by
  rw [dimensionClass?, hnone] at h
  exact Bool.noConfusion h

/-- A length is a dimension or arithmetic. -/
theorem measure_of_isLength {t : Text} (h : isLength t = true) :
    dimension? t ≠ none ∨ isMathFunction t = true := by
  simp only [isLength, Bool.or_eq_true, Bool.and_eq_true] at h
  rcases h with (h | h) | ⟨h, -⟩
  · exact .inl (dimension_of_class h)
  · refine .inl fun hnone => ?_
    rw [isZero, hnone] at h
    exact Bool.noConfusion h
  · exact .inr h

theorem measure_of_isPercentage {t : Text} (h : isPercentage t = true) :
    dimension? t ≠ none ∨ isMathFunction t = true := by
  simp only [isPercentage, Bool.or_eq_true, Bool.and_eq_true] at h
  rcases h with h | ⟨h, -⟩
  · exact .inl (dimension_of_class h)
  · exact .inr h

theorem measure_of_number {t : Text} (h : Kind.number.fits t = true) :
    dimension? t ≠ none ∨ isMathFunction t = true := by
  simp only [Kind.fits, Kind.isMathOf, Bool.or_eq_true, Bool.and_eq_true] at h
  rcases h with h | ⟨h, -⟩
  · exact .inl (dimension_of_class h)
  · exact .inr h

theorem color_apart_length : Kind.Apart .color .length :=
  color_apart fun _ _ h => (measure_of_isLength h).imp id .inl

theorem color_apart_percentage : Kind.Apart .color .percentage :=
  color_apart fun _ _ h => (measure_of_isPercentage h).imp id .inl

/-- The words that stand for widths, sizes and positions. -/
def measureWords : List Text :=
  ["thin", "medium", "thick", "xx-small", "x-small", "small", "large", "x-large", "xx-large",
    "xxx-large", "smaller", "larger", "left", "right", "top", "bottom", "center", "auto", "cover",
    "contain"]

/-- None of them is the name of a color. -/
theorem isColor_of_mem_measureWords : ∀ word ∈ measureWords, isColor word = false := by
  decide +kernel

theorem color_apart_lineWidth : Kind.Apart .color .lineWidth :=
  color_apart fun t _ h => by
    simp only [Kind.fits, Bool.or_eq_true, decide_eq_true_eq] at h
    rcases h with ((rfl | rfl) | rfl) | h
    · exact .inr (.inr (isColor_of_mem_measureWords _ (by decide)))
    · exact .inr (.inr (isColor_of_mem_measureWords _ (by decide)))
    · exact .inr (.inr (isColor_of_mem_measureWords _ (by decide)))
    · exact (measure_of_isLength h).imp id .inl

theorem color_apart_absoluteSize : Kind.Apart .color .absoluteSize :=
  color_apart fun t _ h => by
    have hwords : (["xx-small", "x-small", "small", "medium", "large", "x-large", "xx-large",
        "xxx-large"] : List Text) ⊆ measureWords := by decide
    exact .inr (.inr (isColor_of_mem_measureWords t (hwords (of_decide_eq_true h))))

theorem color_apart_relativeSize : Kind.Apart .color .relativeSize :=
  color_apart fun t _ h => by
    simp only [Kind.fits, Bool.or_eq_true, decide_eq_true_eq] at h
    rcases h with rfl | rfl
    · exact .inr (.inr (isColor_of_mem_measureWords _ (by decide)))
    · exact .inr (.inr (isColor_of_mem_measureWords _ (by decide)))

/-! ## Numbers and families -/

theorem exists_of_mem_pieces {p : Char → Bool} {c : Char} (hc : p c = false) :
    ∀ {t : Text}, c ∈ t → ∃ w ∈ Text.pieces p t, c ∈ w
  | x :: t, hmem => by
    rw [Text.pieces]
    rcases List.mem_cons.mp hmem with rfl | hmem
    · rw [hc, if_neg Bool.false_ne_true]
      split
      · exact ⟨_, List.mem_cons_self, List.mem_cons_self⟩
      · exact ⟨_, List.mem_cons_self, List.mem_cons_self⟩
    · obtain ⟨w, hw, hcw⟩ := exists_of_mem_pieces hc hmem
      split
      · exact ⟨w, List.mem_cons_of_mem _ hw, hcw⟩
      · split
        · rename_i hnil
          rw [hnil] at hw
          exact absurd hw List.not_mem_nil
        · rename_i piece rest hpieces
          rw [hpieces] at hw
          rcases List.mem_cons.mp hw with rfl | hw
          · exact ⟨_, List.mem_cons_self, List.mem_cons_of_mem _ hcw⟩
          · exact ⟨w, List.mem_cons_of_mem _ hw, hcw⟩

theorem exists_of_mem_words {c : Char} (hc : Text.isBlank c = false) {t : Text} (h : c ∈ t) :
    ∃ w ∈ Text.words t, c ∈ w := by
  obtain ⟨w, hw, hcw⟩ := exists_of_mem_pieces hc h
  refine ⟨w, List.mem_filter.mpr ⟨hw, ?_⟩, hcw⟩
  rw [List.isEmpty_eq_false_iff.mpr (List.ne_nil_of_mem hcw)]
  rfl

theorem mem_trim {c : Char} (hc : Text.isBlank c = false) {t : Text} (h : c ∈ t) :
    c ∈ Text.trim t := by
  obtain ⟨b, b', ht, hb, hb'⟩ := Text.exists_blanks t
  rw [ht] at h
  rcases List.mem_append.mp h with h | h
  · rcases List.mem_append.mp h with h | h
    · rw [hb c h] at hc
      exact Bool.noConfusion hc
    · exact h
  · rw [hb' c h] at hc
    exact Bool.noConfusion hc

/-- What is split off a call first begins with the name and the parenthesis. -/
theorem parts_call : ∀ {name : Text}, name.all Char.isLower = true → ∀ u : Text,
    ∃ part more, Split.atChar ',' (name ++ '(' :: u) = (name ++ '(' :: part) :: more
  | [], _, u => by
    obtain ⟨part, more, hparts⟩ :=
      List.exists_cons_of_ne_nil (Split.parts_ne_nil (· = ',') ⟨1, none, false⟩ u)
    have hopen : Split.State.splitsAt .top (· = ',') '(' = false := by decide
    exact ⟨part, more, Split.parts_cons hopen hparts⟩
  | c :: name, hall, u => by
    rw [List.all_cons, Bool.and_eq_true] at hall
    obtain ⟨part, more, hparts⟩ := parts_call hall.2 u
    have hbare : Selector.isBare c = true := by
      rw [Selector.isBare, isAlphanum_of_isLower hall.1]
      rfl
    obtain ⟨hplain, hcomma⟩ := Selector.isPlain_of_isBare hbare
    exact ⟨part, more, Split.parts_plain hplain (decide_eq_false hcomma) hparts⟩

/-- A call is no family: it is not quoted, and a parenthesis is in no word of a family. -/
theorem isFamily_call {t : Text} {c : Char} {u : Text} (ht : t = c :: u)
    (hlower : c.isLower = true) (hparen : '(' ∈ t) : isFamily t = false := by
  have hquote : ∀ quote : Char, quote.isLower = false → isBetween quote t = false := by
    intro quote hquote
    have hne : quote ≠ c := by
      rintro rfl
      exact Bool.false_ne_true (hquote.symm.trans hlower)
    rw [isBetween, ht, Bracketed.startsWith_cons_cons, decide_eq_false hne, Bool.false_and,
      Bool.and_false, Bool.false_and]
  obtain ⟨word, hword, hmem⟩ := exists_of_mem_words (by decide) hparen
  have hfamily : isFamilyWord word = false := by
    rw [isFamilyWord]
    refine Bool.and_eq_false_imp.mpr fun _ => List.all_eq_false.mpr ⟨'(', hmem, by decide⟩
  rw [isFamily, hquote _ (by decide), hquote _ (by decide), Bool.false_or, Bool.false_or]
  exact List.all_eq_false.mpr ⟨word, hword, by rw [hfamily]; exact Bool.false_ne_true⟩

theorem isFamilyList_call {name : Text} (hname : IsLowerWord name) (u : Text) :
    isFamilyList (name ++ '(' :: u) = false := by
  obtain ⟨part, more, hparts⟩ := parts_call hname.2 u
  obtain ⟨c, rest, rfl⟩ := List.exists_cons_of_ne_nil hname.1
  have hlower : c.isLower = true := List.all_eq_true.mp hname.2 c List.mem_cons_self
  have hparen : '(' ∈ Text.trim (c :: rest ++ '(' :: part) :=
    mem_trim (by decide) (List.mem_append_right _ List.mem_cons_self)
  -- the first layer begins where the value does
  have hfamily : isFamily (Text.trim (c :: rest ++ '(' :: part)) = false := by
    obtain ⟨x, v, htrim⟩ := List.exists_cons_of_ne_nil (List.ne_nil_of_mem hparen)
    obtain ⟨w, hw⟩ := Text.dropWhile_of_trim htrim
    have hnamed : Bracketed.isNamed c = true := by
      rw [Bracketed.isNamed, isAlphanum_of_isLower hlower]
      rfl
    have hblank : ¬Text.isBlank c = true :=
      Bool.eq_false_iff.mp (Bracketed.isBlank_of_isNamed hnamed)
    rw [List.cons_append, List.dropWhile_cons_of_neg hblank] at hw
    exact isFamily_call htrim ((List.cons.inj hw).1 ▸ hlower) hparen
  unfold isFamilyList allLayers layers?
  rw [hparts]
  dsimp only
  split
  · rw [Option.any_some, List.map_cons, List.all_cons, hfamily, Bool.false_and]
  · rfl

theorem number_apart_genericName : Kind.Apart .number .genericName :=
  .of_fits fun t _ hnumber hgeneric => by
    have hfamilies : ∀ family ∈ genericFamilies, Kind.number.fits family = false := by
      decide +kernel
    rw [hfamilies t (of_decide_eq_true hgeneric)] at hnumber
    exact Bool.noConfusion hnumber

theorem number_apart_familyName : Kind.Apart .number .familyName :=
  .of_fits fun t _ hnumber hfamily => by
    obtain ⟨hquoted, hlist⟩ := Bool.and_eq_true_iff.mp hfamily
    rcases measure_of_number hnumber with hdimension | hmath
    · have hchar : ∀ c : Char, isDimensionChar c = false → t.contains c = false := fun c hc => by
        refine Bool.eq_false_iff.mpr fun hcontains => ?_
        have hdim := (dimension?_spec hdimension).2 c (List.contains_iff_mem.mp hcontains)
        exact Bool.false_ne_true (hc.symm.trans hdim)
      rw [hchar _ (by decide), hchar _ (by decide), hchar _ (by decide)] at hquoted
      exact Bool.noConfusion hquoted
    · obtain ⟨name, hname, u, rfl⟩ := isMathFunction_spec hmath
      rw [isFamilyList_call (.mathFunctions name hname)] at hlist
      exact Bool.noConfusion hlist

end Value
end UtilityCss
