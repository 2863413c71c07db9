import UtilityCss.Proofs.Evaluation.Verdict
import UtilityCss.Proofs.Value.Apart

/-!
# Utilities that no bracketed value is for

Several utilities can be registered under one name if a bracketed value tells which of them is
meant.  It does if they have no kind in common and their kinds are apart, save for the kind that
takes any value: a tag then names a kind of one of them, and without a tag one of them accepts the
value by a kind that says something.  The kind that takes any value is for what is left over, so
only one of them may have it.
-/

namespace UtilityCss

open Value (Kind)

namespace LookupUtility

/-- The utilities have no kind in common, and no value is of a kind of both. -/
structure Apart (u v : LookupUtility) : Prop where
  disjoint : ∀ kind ∈ u.kinds, kind ∉ v.kinds
  apart : ∀ k ∈ u.kinds, ∀ l ∈ v.kinds, k ≠ .any → l ≠ .any → k.Apart l

/-- The value is of a kind of the utility, by its tag or by itself. -/
def Claims (u : LookupUtility) (value : Text) : Prop :=
  (∃ kind rest, Value.splitTag? value = some (kind, rest) ∧ kind ∈ u.kinds) ∨
    Value.splitTag? value = none ∧
      ∃ kind ∈ u.kinds, kind ≠ .any ∧ kind.accepts value false = true

/-- No value is of kinds of both. -/
theorem Apart.not_claims {u v : LookupUtility} (h : u.Apart v) {value : Text}
    (hu : u.Claims value) : ¬v.Claims value := by
  rintro (⟨l, rest', hl, hlmem⟩ | ⟨hl, l, hlmem, hlany, hlaccepts⟩) <;>
    rcases hu with ⟨k, rest, hk, hkmem⟩ | ⟨hk, k, hkmem, hkany, hkaccepts⟩
  · obtain ⟨rfl, -⟩ := Prod.mk.inj (Option.some.inj (hk.symm.trans hl))
    exact h.disjoint k hkmem hlmem
  · exact Option.some_ne_none _ (hl.symm.trans hk)
  · exact Option.some_ne_none _ (hk.symm.trans hl)
  · rw [h.apart k hkmem l hlmem hkany hlany value hkaccepts] at hlaccepts
    exact Bool.noConfusion hlaccepts

end LookupUtility

namespace Environment

variable {env : Environment} {u v : LookupUtility} {value : Text} {negative : Bool}
  {m : Option ModifierText} {tree : StyleTree} {strong : Bool}

/-- A value is rendered by a kind that accepts it. -/
theorem exists_of_renderKinds? {pinned : Bool} : ∀ {kinds : List Kind},
    env.renderKinds? u value negative pinned m kinds = some (tree, strong) →
      ∃ kind ∈ kinds, kind.accepts value pinned = true ∧ strong = (pinned || kind != .any)
  | [], h => by rw [renderKinds?] at h; cases h
  | kind :: rest, h => by
    have further : env.renderKinds? u value negative pinned m rest = some (tree, strong) →
        ∃ k ∈ kind :: rest, k.accepts value pinned = true ∧ strong = (pinned || k != .any) :=
      fun h => by
        obtain ⟨k, hk, haccepts⟩ := exists_of_renderKinds? h
        exact ⟨k, List.mem_cons_of_mem _ hk, haccepts⟩
    rw [renderKinds?] at h
    split at h
    · exact further h
    · split at h
      · exact further h
      · rename_i text hformat
        obtain ⟨own, -, hown⟩ := Option.map_eq_some_iff.mp h
        refine ⟨kind, List.mem_cons_self, ?_, (Prod.mk.inj hown).2.symm⟩
        unfold Kind.formatValue? at hformat
        dsimp only at hformat
        split at hformat
        · rename_i haccepts
          unfold Kind.accepts at haccepts ⊢
          rwa [Text.trim_trim] at haccepts
        · cases hformat

/-- A utility takes a value for one of its kinds, or because it takes any value. -/
theorem of_renderBracketed? (h : env.renderBracketed? u value negative m = some (tree, strong)) :
    (strong = true → u.Claims value) ∧ (strong = false → Kind.any ∈ u.kinds) := by
  unfold renderBracketed? at h
  split at h
  · cases h
  · split at h
    · rename_i kind rest htag
      split at h
      · rename_i hmem
        obtain ⟨-, -, -, rfl⟩ := exists_of_renderKinds? h
        exact ⟨fun _ => .inl ⟨kind, rest, htag, List.contains_iff_mem.mp hmem⟩,
          fun h => Bool.noConfusion h⟩
      · cases h
    · rename_i htag
      obtain ⟨kind, hmem, haccepts, rfl⟩ := exists_of_renderKinds? h
      refine ⟨fun hstrong => .inr ⟨htag, kind, hmem, ?_, haccepts⟩, fun hweak => ?_⟩
      · exact bne_iff_ne.mp hstrong
      · obtain rfl : kind = .any := by simpa using hweak
        exact hmem

/-- Of two utilities that are apart at most one takes a value for one of its kinds. -/
theorem renderBracketed?_of_apart (h : u.Apart v)
    (hu : env.renderBracketed? u value negative m = some (tree, true)) (tree' : StyleTree) :
    env.renderBracketed? v value negative m ≠ some (tree', true) := fun hv =>
  h.not_claims ((of_renderBracketed? hu).1 rfl) ((of_renderBracketed? hv).1 rfl)

end Environment

/-! ## Verdicts without ambiguity -/

/-- A verdict is not ambiguous if no reading has several candidates. -/
theorem Verdict.not_ambiguous {ι γ β : Type} {strong : γ → Bool} {offered : ι → List γ}
    {make : ι → γ → β} {readings : List ι} {d : Except Failure β}
    (h : Verdict strong offered make readings d)
    (hone : ∀ r ∈ readings, ¬Several strong (offered r)) : d ≠ .error .ambiguous := by
  induction h with
  | notFound => exact fun h => by cases h
  | next _ _ ih => exact ih fun r hr => hone r (List.mem_cons_of_mem _ hr)
  | first hjudged =>
    rintro rfl
    cases hjudged with
    | several hseveral => exact hone _ List.mem_cons_self hseveral

/-- There are not several candidates if of any two exactly one is strong. -/
theorem not_several_of_pairwise {γ : Type} {strong : γ → Bool} {candidates : List γ}
    (h : candidates.Pairwise fun c d => strong c ≠ strong d) : ¬Several strong candidates := by
  have hlength : ∀ {l : List γ} (b : Bool), (l.Pairwise fun c d => strong c ≠ strong d) →
      (∀ c ∈ l, strong c = b) → l.length ≤ 1
    | [], _, _, _ => Nat.zero_le 1
    | [_], _, _, _ => Nat.le_refl 1
    | c :: d :: _, b, hpairwise, hall => by
      have hne := (List.pairwise_cons.mp hpairwise).1 d List.mem_cons_self
      refine absurd ?_ hne
      rw [hall c List.mem_cons_self, hall d (List.mem_cons_of_mem _ List.mem_cons_self)]
  rintro (hstrong | ⟨hnone, hmany⟩)
  · have hle := hlength true (h.filter strong) fun c hc => (List.mem_filter.mp hc).2
    omega
  · have hle := hlength false h fun c hc => by
      rw [List.filter_eq_nil_iff] at hnone
      exact Bool.eq_false_iff.mpr (hnone c hc)
    omega

/-- If both specs take values, they are apart and at most one of them takes any value. -/
def UtilitySpec.Apart (s t : UtilitySpec) : Prop :=
  ∀ u v, s.rule = .lookup u → t.rule = .lookup v →
    u.Apart v ∧ ¬(Kind.any ∈ u.kinds ∧ Kind.any ∈ v.kinds)

namespace Environment

variable {env : Environment}

theorem not_several_bracketedCandidates {name : Text}
    (h : (env.registry.utilities.specs name).Pairwise UtilitySpec.Apart) (value : Text)
    (negative : Bool) (m : Option ModifierText) (led : Bool) :
    ¬Several Candidate.strong (env.bracketedCandidates name value negative m led) := by
  refine not_several_of_pairwise (List.pairwise_filterMap.mpr ((h.filter _).imp ?_))
  rintro ⟨p, rule⟩ ⟨q, rule'⟩ hapart c hc d hd hsame
  cases rule with
  | fixed tree flags => cases hc
  | lookup u =>
    cases rule' with
    | fixed tree flags => cases hd
    | lookup v =>
      obtain ⟨⟨tree, strong⟩, hu, rfl⟩ := Option.map_eq_some_iff.mp hc
      obtain ⟨⟨tree', strong'⟩, hv, rfl⟩ := Option.map_eq_some_iff.mp hd
      obtain ⟨huv, hany⟩ := hapart u v rfl rfl
      obtain rfl : strong = strong' := hsame
      cases strong with
      | true => exact renderBracketed?_of_apart huv hu tree' hv
      | false => exact hany ⟨(of_renderBracketed? hu).2 rfl, (of_renderBracketed? hv).2 rfl⟩

/-- A name with a bracketed value is not ambiguous if what is registered under its readings is
apart. -/
theorem utilityOf_bracketed_ne_ambiguous {lead value : Slice} {m : Option ClassList.Modifier}
    {closed : Bool} (h : ∀ r ∈ bracketedReadings (env.stripLead lead.text).1,
      (env.registry.utilities.specs r.1).Pairwise UtilitySpec.Apart) :
    env.utilityOf (.bracketed lead value m closed) ≠ .error .ambiguous :=
  (env.verdict_bracketedUtility _ _ _).not_ambiguous fun r hr =>
    not_several_bracketedCandidates (h r hr) _ _ _ _

end Environment
end UtilityCss
