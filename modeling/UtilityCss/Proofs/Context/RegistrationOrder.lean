import UtilityCss.Proofs.Evaluation.Alike
import UtilityCss.Proofs.Evaluation.Verdict

/-!
# The order of registration

Several utilities that take values may be registered under one name, and several of them may
render a value.  Which of them was registered first does not matter: candidates are counted
and not ranked, so a name that could mean two things is ambiguous in any order.  Putting the
specs under a name in another order therefore changes no answer, as long as those with
fixed rules, which are merged in order, stay in order among themselves.
-/

namespace UtilityCss

/-! ## Specs in another order -/

/-- What is left out makes nothing anyway. -/
theorem filterMap_filter_of_none {α β : Type} {keep : α → Bool} {f : α → Option β}
    (hf : ∀ x, keep x = false → f x = none) (xs : List α) :
    (xs.filter keep).filterMap f = xs.filterMap f := by
  rw [List.filterMap_filter]
  refine List.filterMap_congr fun x _ => ?_
  split
  · rfl
  · rename_i hkeep
    exact (hf x (Bool.eq_false_iff.mpr hkeep)).symm

/-- What is left out changes nothing anyway. -/
theorem foldl_filter_of_same {α β : Type} {keep : α → Bool} {f : β → α → β}
    (hf : ∀ b x, keep x = false → f b x = b) (xs : List α) (b : β) :
    (xs.filter keep).foldl f b = xs.foldl f b := by
  rw [List.foldl_filter]
  congr 1
  funext b x
  split
  · rfl
  · rename_i hkeep
    exact (hf b x (Bool.eq_false_iff.mpr hkeep)).symm

/-- The specs are the same: those with fixed rules in the same order, those that take values in
any. -/
structure Reordered {α : Type} (isLookup : α → Bool) (specs specs' : List α) : Prop where
  fixed : specs'.filter (fun spec => !isLookup spec) = specs.filter fun spec => !isLookup spec
  lookups : (specs.filter isLookup).Perm (specs'.filter isLookup)

namespace Reordered

variable {α β : Type} {isLookup : α → Bool} {specs specs' : List α}

theorem any (h : Reordered isLookup specs specs') :
    specs'.any isLookup = specs.any isLookup := by
  have hmem : ∀ spec, (spec ∈ specs' ∧ isLookup spec = true) ↔
      (spec ∈ specs ∧ isLookup spec = true) := by
    intro spec
    rw [← List.mem_filter, ← List.mem_filter, h.lookups.mem_iff]
  rw [Bool.eq_iff_iff, List.any_eq_true, List.any_eq_true]
  exact exists_congr hmem

theorem filter (h : Reordered isLookup specs specs') (keep : α → Bool) :
    Reordered isLookup (specs.filter keep) (specs'.filter keep) where
  fixed := by rw [List.filter_comm, h.fixed, List.filter_comm]
  lookups := by
    rw [List.filter_comm, List.filter_comm _ keep specs']
    exact h.lookups.filter keep

/-- What is made of those specs only that take values is made in another order. -/
theorem filterMap (h : Reordered isLookup specs specs') {f : α → Option β}
    (hf : ∀ spec, isLookup spec = false → f spec = none) :
    (specs.filterMap f).Perm (specs'.filterMap f) := by
  rw [← filterMap_filter_of_none hf specs, ← filterMap_filter_of_none hf specs']
  exact h.lookups.filterMap f

end Reordered

/-- The tables have the same names, and under each of them the same specs up to the order of those
that take values. -/
structure SpecTable.Reordered {α : Type} (isLookup : α → Bool) (table table' : SpecTable α) :
    Prop where
  names : ∀ name, Keyed.has name table' = Keyed.has name table
  specs : ∀ name, UtilityCss.Reordered isLookup (table.specs name) (table'.specs name)

theorem SpecTable.Reordered.readings {α : Type} {isLookup : α → Bool} {table table' : SpecTable α}
    (h : table.Reordered isLookup table') (name : Text) (m : Option ModifierText) :
    Reading.all? table' isLookup name m = Reading.all? table isLookup name m :=
  Reading.all?_congr (fun _ _ r _ => h.names r.key) (fun _ _ r _ => (h.specs r.key).any)

/-- The registries have the same under each name of a utility and of a variant, up to the order of
what takes values. -/
structure Registry.Reordered (registry registry' : Registry) : Prop where
  utilities : registry.utilities.Reordered UtilitySpec.isLookup registry'.utilities
  variants : registry.variants.Reordered VariantSpec.isLookup registry'.variants

namespace Environment

/-! ## Candidates in another order -/

/-- The candidate that the static utilities make together does not depend on the others. -/
theorem staticCandidate?_filter : ∀ specs : List UtilitySpec,
    staticCandidate? (specs.filter fun spec => !spec.isLookup) = staticCandidate? specs
  | [] => rfl
  | ⟨_, .lookup _⟩ :: rest => staticCandidate?_filter rest
  | ⟨plugin, .fixed tree flags⟩ :: rest => by
    have hkeep : (⟨plugin, .fixed tree flags⟩ :: rest : List UtilitySpec).filter
        (fun spec => !spec.isLookup) =
          ⟨plugin, .fixed tree flags⟩ :: rest.filter fun spec => !spec.isLookup := rfl
    rw [hkeep, staticCandidate?, staticCandidate?]
    dsimp only
    rw [foldl_filter_of_same]
    rintro tree ⟨_, rule | rule⟩ hlookup
    · exact absurd hlookup (by simp [UtilitySpec.isLookup])
    · rfl

/-- The templates that the static variants make together do not depend on the others. -/
theorem staticTemplates?_filter (specs : List VariantSpec) :
    staticTemplates? (specs.filter fun spec => !spec.isLookup) = staticTemplates? specs := by
  unfold staticTemplates?
  dsimp only
  rw [filterMap_filter_of_none]
  rintro ⟨_, rule | rule, _⟩ hlookup
  · exact absurd hlookup (by simp [VariantSpec.isLookup])
  · rfl

variable (env : Environment)

theorem candidates_perm {specs specs' : List UtilitySpec}
    (h : Reordered UtilitySpec.isLookup specs specs') (r : Reading) (led : Bool) :
    (env.candidates specs r led).Perm (env.candidates specs' r led) := by
  have hallowed := h.filter fun spec => env.allows spec.flags led
  have hstatic : staticCandidate? (specs.filter fun spec => env.allows spec.flags led) =
      staticCandidate? (specs'.filter fun spec => env.allows spec.flags led) := by
    rw [← staticCandidate?_filter, ← hallowed.fixed, staticCandidate?_filter]
  unfold candidates
  dsimp only
  rw [hstatic]
  refine List.Perm.append_left _ (hallowed.filterMap ?_)
  rintro ⟨plugin, rule | rule⟩ hfixed
  · rfl
  · exact absurd hfixed (by simp [UtilitySpec.isLookup])

theorem offeredBracketed_perm {registry : Registry} (h : env.registry.Reordered registry)
    (value : Text) (m : Option ModifierText) (led : Bool) (r : Text × Bool) :
    (env.offeredBracketed value m led r).Perm
      ((env.withRegistry registry).offeredBracketed value m led r) := by
  have hallowed := (h.utilities.specs r.1).filter fun spec => env.allows spec.flags led
  unfold offeredBracketed bracketedCandidates
  simp only [renderBracketed?_withRegistry]
  refine hallowed.filterMap ?_
  rintro ⟨plugin, rule | rule⟩ hfixed
  · rfl
  · exact absurd hfixed (by simp [UtilitySpec.isLookup])

theorem variantCandidates_perm {specs specs' : List VariantSpec}
    (h : Reordered VariantSpec.isLookup specs specs') (r : Reading) :
    (variantCandidates specs r).Perm (variantCandidates specs' r) := by
  have hstatic : staticTemplates? specs = staticTemplates? specs' := by
    rw [← staticTemplates?_filter, ← h.fixed, staticTemplates?_filter]
  unfold variantCandidates
  dsimp only
  rw [hstatic]
  refine List.Perm.append_left _ (h.filterMap ?_)
  rintro ⟨plugin, rule | rule, post⟩ hfixed
  · rfl
  · exact absurd hfixed (by simp [VariantSpec.isLookup])

theorem offeredBracketedVariants_perm {registry : Registry} (h : env.registry.Reordered registry)
    (value : Text) (m : Option ModifierText) (name : Text) :
    (env.offeredBracketedVariants value m name).Perm
      ((env.withRegistry registry).offeredBracketedVariants value m name) := by
  refine (h.variants.specs name).filterMap ?_
  rintro ⟨plugin, rule | rule, post⟩ hfixed
  · rfl
  · exact absurd hfixed (by simp [VariantSpec.isLookup])

/-- Every name resolves to the same where the registry has its specs in another order. -/
theorem alike_of_reordered {registry : Registry} (h : env.registry.Reordered registry) :
    env.Alike (env.withRegistry registry) where
  theme := rfl
  settings := rfl
  separator := rfl
  utility name m := by
    have hreadings := h.utilities.readings (env.stripLead name).1 m
    cases hall : Reading.all? env.registry.utilities UtilitySpec.isLookup
        (env.stripLead name).1 m with
    | none =>
      exact ((env.withRegistry registry).utility_of_torn (hreadings.trans hall)).trans
        (env.utility_of_torn hall).symm
    | some readings =>
      have hverdict := env.verdict_utility hall
      have hverdict' := (env.withRegistry registry).verdict_utility (hreadings.trans hall)
      refine hverdict'.unique (hverdict.perm fun r => ?_)
      exact env.candidates_perm (h.utilities.specs r.key) r _
  bracketedUtility name value m :=
    ((env.withRegistry registry).verdict_bracketedUtility name value m).unique
      ((env.verdict_bracketedUtility name value m).perm
        (env.offeredBracketed_perm h value m (env.stripLead name).2))
  variant name m := by
    have hreadings := h.variants.readings name m
    cases hall : Reading.all? env.registry.variants VariantSpec.isLookup name m with
    | none =>
      exact ((env.withRegistry registry).variant_of_torn (hreadings.trans hall)).trans
        (env.variant_of_torn hall).symm
    | some readings =>
      have hverdict := env.verdict_variant hall
      have hverdict' := (env.withRegistry registry).verdict_variant (hreadings.trans hall)
      refine hverdict'.unique (hverdict.perm fun r => ?_)
      exact variantCandidates_perm (h.variants.specs r.key) r
  bracketedVariant name value m :=
    ((env.withRegistry registry).verdict_bracketedVariant name value m).unique
      ((env.verdict_bracketedVariant name value m).perm
        (env.offeredBracketedVariants_perm h value m))

end Environment

namespace Context

open Environment

/-- Specs that take values may be registered in any order: class lists, their diagnostics, single
utilities and single variants stay what they are.  What a name comes to is what the first
of its readings comes to that anything is offered for: the one strong candidate, the one
candidate where none is strong, and else that it is ambiguous.  That holds of plain
names and of names with bracketed values, of utilities and of variants, for which every
candidate is strong. -/
theorem css_reordered (ctx : Context) {registry : Registry}
    (h : ctx.env.registry.Reordered registry) :
    let env := ctx.env
    let other : Context := { ctx with env := env.withRegistry registry }
    (∀ input, other.css input = ctx.css input ∧ other.evaluate input = ctx.evaluate input ∧
      other.env.evaluate input = env.evaluate input ∧ other.wrap input = ctx.wrap input ∧
      other.findUtility input = ctx.findUtility input ∧
      other.findVariant input = ctx.findVariant input) ∧
    (∀ name m readings,
      Reading.all? env.registry.utilities UtilitySpec.isLookup (env.stripLead name).1 m =
        some readings → ∀ decision,
      (Verdict Candidate.strong (env.offered (env.stripLead name).2) utilityBy readings decision ↔
        decision = env.utility name m)) ∧
    (∀ name value m decision,
      Verdict Candidate.strong (env.offeredBracketed value m (env.stripLead name).2)
        bracketedUtilityBy (bracketedReadings (env.stripLead name).1) decision ↔
      decision = env.bracketedUtility name value m) ∧
    (∀ name m readings,
      Reading.all? env.registry.variants VariantSpec.isLookup name m = some readings →
      ∀ decision,
      (Verdict (fun _ => true) env.offeredVariants (fun r => variantBy r.key)
        (readings.filter fun r => !r.negative) decision ↔ decision = env.variant name m)) ∧
    (∀ name value m decision,
      Verdict (fun _ => true) (env.offeredBracketedVariants value m) variantBy [name] decision ↔
      decision = env.bracketedVariant name value m) := by
  intro env other
  have halike : env.Alike other.env := env.alike_of_reordered h
  refine ⟨fun input => ?_, ?_, ?_, ?_, ?_⟩
  · refine ⟨css_of_alike halike rfl input, evaluate_of_alike halike rfl input,
      halike.evaluate input, wrap_of_alike halike rfl input, ?_, ?_⟩
    · rw [findUtility, halike.findUtility, findUtility]
    · rw [findVariant, halike.findVariant, findVariant]
  · exact fun name m readings hall decision => (env.verdict_utility hall).iff_eq
  · exact fun name value m decision => (env.verdict_bracketedUtility name value m).iff_eq
  · exact fun name m readings hall decision => (env.verdict_variant hall).iff_eq
  · exact fun name value m decision => (env.verdict_bracketedVariant name value m).iff_eq

/-- A fixed style and two lookups, of which only one knows the sort of value, the other way
around: the one that knows it is strong in both orders. -/
theorem css_reordered_strong :
    let rendering (name : Char) (kind : Value.Kind) : UtilitySpec :=
      ⟨[], .lookup ⟨[], [kind], .standard, fun text _ => [([name], .scalar text)], none⟩⟩
    let fixed : UtilitySpec := ⟨[], .fixed [] .standard⟩
    let registry : Registry :=
      ⟨[(['b'], [rendering 'u' .any, fixed, rendering 'w' .relativeSize])], [], []⟩
    let registry' : Registry :=
      ⟨[(['b'], [fixed, rendering 'w' .relativeSize, rendering 'u' .any])], [], []⟩
    let settings : Settings := ⟨[':'], [], .all false, .media, []⟩
    let ctx : Context := ⟨⟨⟨.null⟩, settings, .colon, registry⟩, [], false⟩
    let input : Text := ['b', '-', '['] ++ "larger".toList ++ [']']
    registry.Reordered registry' ∧
      ({ ctx with env := ctx.env.withRegistry registry' } : Context).css input = ctx.css input ∧
      ctx.css input = .ok [(['w'], .scalar "larger".toList)] := by
  intro rendering fixed registry registry' settings ctx input
  have hb : Reordered UtilitySpec.isLookup
      [rendering 'u' .any, fixed, rendering 'w' .relativeSize]
      [fixed, rendering 'w' .relativeSize, rendering 'u' .any] := ⟨rfl, .swap _ _ _⟩
  have hreordered : registry.Reordered registry' := by
    refine ⟨⟨fun name => ?_, fun name => ?_⟩, ⟨fun _ => rfl, fun _ => ⟨rfl, .refl _⟩⟩⟩
    · rw [Keyed.has, Keyed.has, List.lookup_cons, List.lookup_cons]
      cases name == ['b'] <;> rfl
    · rw [SpecTable.specs, SpecTable.specs, List.lookup_cons, List.lookup_cons]
      cases name == ['b']
      · exact ⟨rfl, .refl _⟩
      · exact hb
  exact ⟨hreordered, ((css_reordered ctx hreordered).1 input).1, by decide⟩

end Context
end UtilityCss
