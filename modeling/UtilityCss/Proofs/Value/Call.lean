import UtilityCss.Proofs.Split
import UtilityCss.Proofs.Value.Measure

/-!
# Single calls

A single call is the name of a function and a parenthesis that is closed at the end of the text.
What is looked at is the name and the last character only.  So it depends on what stands between the
parentheses whether a text that is taken for a call is one: if that is balanced, the text is a call,
and it is split nowhere.

A dimension is split nowhere either.  So the values that measure are single terms as long as the
parenthesis in which one begins is closed last.  Negating does not look for terms: what is no
dimension is multiplied as it stands.
-/

namespace UtilityCss
namespace Value

open Bracketed (isNamed isPlain_of_isNamed)

/-! ## Calls -/

/-- The name of a function: letters, digits, hyphens and underscores. -/
def IsFunctionName (name : Text) : Prop := name ≠ [] ∧ ∀ c ∈ name, isNamed c = true

/-- The whole text is one call of the function: the parenthesis behind the name is closed by the
last character, not before it. -/
def IsCall (name t : Text) : Prop :=
  IsFunctionName name ∧ ∃ args, t = name ++ '(' :: (args ++ [')']) ∧ Split.Balanced args

/-- Between the parenthesis behind a name at the beginning and one at the end, the text is
balanced. -/
def ClosesLast (t : Text) : Prop :=
  ∀ name args, IsFunctionName name → t = name ++ '(' :: (args ++ [')']) → Split.Balanced args

/-- The text is split neither at blanks nor at commas. -/
def IsSingle (t : Text) : Prop := Split.terms t = [t] ∧ Split.atChar ',' t = [t]

instance (name : Text) : Decidable (IsFunctionName name) :=
  inferInstanceAs (Decidable (_ ∧ ∀ c ∈ name, _))

instance (t : Text) : Decidable (IsSingle t) := inferInstanceAs (Decidable (_ ∧ _))

/-- What is looked at is the name, the parenthesis behind it and the last character. -/
theorem functionName?_eq_some_iff {t name : Text} : functionName? t = some name ↔
    IsFunctionName name ∧ ∃ args, t = name ++ '(' :: (args ++ [')']) := by
  have hvalid : ∀ own : Text, (!own.isEmpty &&
      own.all fun c => c.isAlphanum || decide (c = '-') || decide (c = '_')) = true ↔
        IsFunctionName own := fun own => by
    rw [Bool.and_eq_true, Bool.not_eq_true', List.isEmpty_eq_false_iff, List.all_eq_true]
    rfl
  rw [functionName?]
  constructor
  · intro h
    split at h
    next own rest hcut =>
      split at h
      next hcond =>
        obtain rfl : own = name := Option.some.inj h
        obtain ⟨hname, hends⟩ := Bool.and_eq_true_iff.mp hcond
        obtain ⟨c, hc, -, rfl⟩ := Text.cutAt?_eq_some_iff.mp hcut
        obtain rfl := of_decide_eq_true hc
        obtain ⟨u, hu⟩ := Text.endsWith_iff.mp hends
        refine ⟨(hvalid own).mp hname, ?_⟩
        -- the last character is no opening parenthesis, so something is behind that one
        rcases Text.append_eq_append_cons hu with ⟨v, -, hv⟩ | ⟨_ | ⟨x, args⟩, -, hv⟩
        · exact absurd hv (by simp)
        · exact absurd (List.cons.inj hv).1 (by decide)
        · exact ⟨args, congrArg (own ++ '(' :: ·) (List.cons.inj hv).2⟩
      next => cases h
    next => cases h
  · rintro ⟨hname, args, rfl⟩
    have hopen : ∀ c ∈ name, decide (c = '(') = false := fun c hc => by
      refine decide_eq_false ?_
      rintro rfl
      exact absurd (hname.2 _ hc) (by decide)
    have hcut : Text.cutAt? (· = '(') (name ++ '(' :: (args ++ [')'])) =
        some (name, args ++ [')']) :=
      Text.cutAt?_eq_some_iff.mpr ⟨'(', by decide, hopen, rfl⟩
    have hends : Text.endsWith (name ++ '(' :: (args ++ [')'])) [')'] = true :=
      Text.endsWith_iff.mpr ⟨name ++ '(' :: args, by simp⟩
    rw [hcut]
    dsimp only
    rw [(hvalid name).mpr hname, hends]
    rfl

/-- A call is taken for one. -/
theorem IsCall.functionName? {name t : Text} (h : IsCall name t) : functionName? t = some name := by
  obtain ⟨hname, args, ht, -⟩ := h
  exact functionName?_eq_some_iff.mpr ⟨hname, args, ht⟩

/-- What is taken for a call is one if its first parenthesis is closed last. -/
theorem isCall_of_functionName? {name t : Text} (ht : ClosesLast t)
    (h : functionName? t = some name) : IsCall name t := by
  obtain ⟨hname, args, heq⟩ := functionName?_eq_some_iff.mp h
  exact ⟨hname, args, heq, ht name args hname heq⟩

/-- Only one name and one text behind it can be meant. -/
theorem args_unique {name args name' args' : Text} (hname : IsFunctionName name)
    (hname' : IsFunctionName name')
    (h : name ++ '(' :: (args ++ [')']) = name' ++ '(' :: (args' ++ [')'])) : args = args' := by
  have hsome := functionName?_eq_some_iff.mpr ⟨hname, args, rfl⟩
  rw [functionName?_eq_some_iff.mpr ⟨hname', args', h⟩] at hsome
  obtain rfl : name' = name := Option.some.inj hsome
  exact List.append_cancel_right (List.cons.inj (List.append_cancel_left h)).2

/-- In a call the first parenthesis is closed last. -/
theorem IsCall.closesLast {name t : Text} (h : IsCall name t) : ClosesLast t := by
  obtain ⟨hname, args, rfl, hargs⟩ := h
  exact fun _ _ hname' heq => args_unique hname hname' heq ▸ hargs

/-! ## Single terms -/

theorem isSingle_of_whole {t : Text} (hne : t ≠ []) (hblank : Split.Whole Text.isBlank t)
    (hcomma : Split.Whole (· = ',') t) : IsSingle t :=
  ⟨Split.terms_eq_singleton hne hblank, Split.atTop_eq_singleton_iff.mpr hcomma⟩

/-- A call is a single term. -/
theorem IsCall.isSingle {name t : Text} (h : IsCall name t) : IsSingle t := by
  obtain ⟨hname, args, rfl, hargs⟩ := h
  have hplain : ∀ c ∈ name, Brackets.isPlain c = true ∧ Text.isBlank c = false ∧ c ≠ ',' := by
    intro c hc
    obtain ⟨hplain, -, -, hblank⟩ := isPlain_of_isNamed (hname.2 c hc)
    refine ⟨hplain, hblank, ?_⟩
    rintro rfl
    exact absurd (hname.2 _ hc) (by decide)
  exact isSingle_of_whole (List.append_ne_nil_of_left_ne_nil hname.1 _)
    (hargs.whole_parens fun c hc => ⟨(hplain c hc).1, (hplain c hc).2.1⟩)
    (hargs.whole_parens fun c hc => ⟨(hplain c hc).1, decide_eq_false (hplain c hc).2.2⟩)

/-- A dimension is a single term. -/
theorem isSingle_of_dimension? {t : Text} (h : dimension? t ≠ none) : IsSingle t := by
  obtain ⟨⟨c, u, hcons, -⟩, hchars⟩ := dimension?_spec h
  have hplain := fun c hc => (plain_of_isDimensionChar (hchars c hc)).2
  exact isSingle_of_whole (by rw [hcons]; exact List.cons_ne_nil c u)
    (Split.whole_of_forall fun c hc => (hplain c hc).1)
    (Split.whole_of_forall fun c hc => decide_eq_false (hplain c hc).2.1)

/-- What is taken for a call of any function is a single term if its first parenthesis is closed
last. -/
theorem isSingle_of_functionName? {t : Text} (ht : ClosesLast t) {p : Text → Bool}
    (h : (functionName? t).any p = true) : IsSingle t := by
  obtain ⟨name, hname, -⟩ := (Option.any_eq_true _ _).mp h
  exact (isCall_of_functionName? ht hname).isSingle

/-- What measures something is a single term, if its first parenthesis is closed last. -/
theorem isSingle_of_measured? {t : Text} (ht : ClosesLast t) (h : measured? t ≠ none) :
    IsSingle t := by
  by_cases hmath : isMathFunction t = true
  · exact isSingle_of_functionName? ht hmath
  · rw [measured?, if_neg hmath, dimensionClass?, ne_eq, Option.map_eq_none_iff] at h
    exact isSingle_of_dimension? h

/-- So is what looks like a value of a kind that measures. -/
theorem isSingle_of_fits {t : Text} (ht : ClosesLast t) {k : Kind} {c : UnitClass}
    (hk : k.measures? = some c) (h : k.fits t = true) : IsSingle t := by
  refine isSingle_of_measured? ht ?_
  rcases (Kind.fits_iff_measured hk t).mp h with h | ⟨-, h⟩
  · rw [h]
    exact Option.some_ne_none c
  · rw [measured?_of_isZero h]
    exact Option.some_ne_none _

/-- **Single calls count as functions.**  If the first parenthesis of a text, behind a name, is
closed by the last character, the name of a function is found exactly if the whole text is one call.
Then no text of several terms passes for arithmetic, for a reference, for a length or percentage or
for a value of a kind that measures.

A dimension, which is one term, is negated by its sign; anything else is multiplied as it stands,
be it one term or several, but what a kind that measures hands on is one. -/
theorem functionName?_call {t : Text} (ht : ClosesLast t) :
    (∀ name, functionName? t = some name ↔ IsCall name t) ∧
    (isMathFunction t = true ∨ isReference t = true ∨ isLength t = true ∨ isPercentage t = true →
      IsSingle t) ∧
    (∀ v, Text.trim v = t →
      (∀ k ∈ Kind.lineWidth :: Kind.measuring, k.accepts v false = true → IsSingle t) ∧
      ∀ k ∈ Kind.measuring, ∀ opacity w, k.formatValue? v true false opacity = some w →
        w = negate t ∧ IsSingle t) ∧
    (dimension? t ≠ none → IsSingle t) ∧
    (dimension? t = none → negate t = "calc(".toList ++ t ++ " * -1)".toList) := by
  have hlength : isLength t = true → IsSingle t := fun h =>
    isSingle_of_fits ht (k := .length) rfl h
  have hmeasuring : ∀ k ∈ Kind.measuring, k.fits t = true → IsSingle t := by
    intro k hk h
    obtain ⟨c, hc⟩ := Kind.exists_measures?_of_mem hk
    exact isSingle_of_fits ht hc h
  refine ⟨fun name => ⟨isCall_of_functionName? ht, IsCall.functionName?⟩, ?_, ?_,
    isSingle_of_dimension?, fun h => ?_⟩
  · rintro (h | h | h | h)
    · exact isSingle_of_functionName? ht h
    · exact isSingle_of_functionName? ht h
    · exact hlength h
    · exact isSingle_of_fits ht (k := .percentage) rfl h
  · rintro v rfl
    refine ⟨fun k hk h => ?_, fun k hk opacity w h => ?_⟩
    · have hfits := (Kind.accepts_iff.mp h).2
      rcases List.mem_cons.mp hk with rfl | hk
      · simp only [Kind.fits, Bool.or_eq_true, decide_eq_true_eq] at hfits
        rcases hfits with ((hword | hword) | hword) | hlen
        · rw [hword]; decide
        · rw [hword]; decide
        · rw [hword]; decide
        · exact hlength hlen
      · exact hmeasuring k hk hfits
    · unfold Kind.formatValue? at h
      dsimp only at h
      split at h
      next haccepts =>
        have hfits := (Kind.accepts_iff.mp haccepts).2
        rw [Text.trim_trim] at hfits
        have hnegatable : k.negatable = true :=
          (by decide : ∀ k ∈ Kind.measuring, k.negatable = true) k hk
        have hfinish : k.finish (Text.trim v) true opacity = some (negate (Text.trim v)) :=
          if_pos hnegatable
        rw [hfinish] at h
        exact ⟨(Option.some.inj h).symm, hmeasuring k hk hfits⟩
      next => cases h
  · unfold negate
    rw [h]

theorem functionName?_call_nested : ClosesLast "calc(min(1px, 2px) * (1 + 1))" ∧
    IsCall "calc" "calc(min(1px, 2px) * (1 + 1))" ∧
    IsSingle "calc(min(1px, 2px) * (1 + 1))" := by
  have hcall : IsCall "calc" "calc(min(1px, 2px) * (1 + 1))" :=
    ⟨by decide, "min(1px, 2px) * (1 + 1)".toList, by decide, by decide⟩
  have h := functionName?_call hcall.closesLast
  exact ⟨hcall.closesLast, (h.1 _).mp (by decide), h.2.1 (.inl (by decide))⟩

/-- Calls one after the other are taken for one call, and so for one length.  Several terms are
multiplied together even if they are no calls. -/
theorem functionName?_several : functionName? "calc(1px) calc(2px)" = some "calc".toList ∧
    ¬IsCall "calc" "calc(1px) calc(2px)" ∧
    Split.terms "calc(1px) calc(2px)" = ["calc(1px)".toList, "calc(2px)".toList] ∧
    isMathFunction "calc(1px) calc(2px)" = true ∧
    Kind.length.accepts "calc(1px) calc(2px)" false = true ∧
    Kind.any.formatValue? "1px 2px" true false none = some "calc(1px 2px * -1)".toList ∧
    Split.terms "1px 2px" = ["1px".toList, "2px".toList] := by
  refine ⟨by decide, ?_, by decide, by decide, by decide, by decide, by decide⟩
  rintro ⟨hname, args, heq, hargs⟩
  have hown : "calc(1px) calc(2px)".toList =
      "calc".toList ++ '(' :: ("1px) calc(2px".toList ++ [')']) := by decide
  rw [← args_unique hname hname (hown.symm.trans heq)] at hargs
  exact absurd hargs (by decide)

end Value
end UtilityCss
