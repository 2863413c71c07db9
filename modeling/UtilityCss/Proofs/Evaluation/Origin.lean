import Mathlib.Data.Option.Basic
import UtilityCss.Proofs.Evaluation.Precedence

/-!
# Where styles come from

However a utility is found, its style is one that the static utilities of a name make together or
one that a lookup utility renders of some text.  The readings of the name, the kinds of values and
the modifiers only decide which, so what is true of every style that is made in one of the two ways
is true of the style of every utility.
-/

namespace UtilityCss

/-- The utility renders the style of some text. -/
def LookupUtility.Renders (u : LookupUtility) (tree : StyleTree) : Prop :=
  ∃ text info, u.finish? text info = some tree

namespace Environment

variable {env : Environment}

/-! ## Lookup utilities -/

theorem renders_of_reading {u : LookupUtility} {r : Reading} {tree : StyleTree}
    (h : env.renderEntry? u r = some tree) : u.Renders tree := by
  unfold renderEntry? at h
  simp only [Option.bind_eq_bind] at h
  split at h
  · exact absurd h (by simp)
  · obtain ⟨⟨entry, modifier⟩, -, h⟩ := Option.bind_eq_some_iff.mp h
    obtain ⟨opacity, -, h⟩ := Option.bind_eq_some_iff.mp h
    obtain ⟨text, -, h⟩ := Option.bind_eq_some_iff.mp h
    split at h
    · split at h
      · obtain ⟨negated, -, h⟩ := Option.bind_eq_some_iff.mp h
        exact ⟨_, _, h⟩
      · exact absurd h (by simp)
    · exact ⟨_, _, h⟩

theorem renders_of_kinds {u : LookupUtility} {value : Text} {negative pinned strong : Bool}
    {modifier : Option ModifierText} {tree : StyleTree} : ∀ {kinds : List Value.Kind},
      env.renderKinds? u value negative pinned modifier kinds = some (tree, strong) →
        u.Renders tree
  | [], h => absurd h (by simp [renderKinds?])
  | kind :: rest, h => by
    rw [renderKinds?] at h
    split at h
    · exact renders_of_kinds h
    · split at h
      · exact renders_of_kinds h
      · obtain ⟨made, hmade, hpair⟩ := Option.map_eq_some_iff.mp h
        obtain rfl := (Prod.mk.inj hpair).1
        exact ⟨_, _, hmade⟩

theorem renders_of_bracketed {u : LookupUtility} {value : Text} {negative strong : Bool}
    {modifier : Option ModifierText} {tree : StyleTree}
    (h : env.renderBracketed? u value negative modifier = some (tree, strong)) :
    u.Renders tree := by
  unfold renderBracketed? at h
  split at h
  · exact absurd h (by simp)
  · split at h
    · split at h
      · exact renders_of_kinds h
      · exact absurd h (by simp)
    · exact renders_of_kinds h

/-! ## Candidates -/

/-- The spec comes with the style under the name. -/
inductive Makes (env : Environment) (name : Text) : UtilitySpec → StyleTree → Prop where
  | static {led : Bool} {c : Candidate} :
    staticCandidate? ((env.registry.utilities.specs name).filter fun spec =>
      env.allows spec.flags led) = some c →
    Makes env name c.spec c.tree
  | rendered {spec : UtilitySpec} {u : LookupUtility} {tree : StyleTree} :
    spec ∈ env.registry.utilities.specs name → spec.rule = .lookup u → u.Renders tree →
    Makes env name spec tree

/-- What is chosen is one of the candidates. -/
theorem exists_mem_of_choose? {key : Text} {candidates : List Candidate}
    {found : ResolvedUtility} (h : Candidate.choose? key candidates = some (.ok found)) :
    ∃ c ∈ candidates, found = ⟨key, c.spec, c.tree⟩ := by
  simp only [Candidate.choose?] at h
  split at h
  · exact absurd h (by simp)
  · rename_i c hone
    refine ⟨c, ?_, (Except.ok.inj (Option.some.inj h)).symm⟩
    split at hone
    · rw [hone]
      exact List.mem_cons_self
    · exact List.mem_of_mem_filter (hone ▸ List.mem_cons_self)
  · exact absurd h (by simp)

theorem makes_of_mem_candidates {r : Reading} {led : Bool} {c : Candidate}
    (h : c ∈ env.candidates (env.registry.utilities.specs r.key) r led) :
    env.Makes r.key c.spec c.tree := by
  rcases candidates_cases h with hstatic | ⟨spec, hmem, u, tree, hrule, htree, rfl⟩
  · exact .static hstatic
  · exact .rendered hmem hrule (renders_of_reading htree)

theorem makes_of_mem_bracketedCandidates {name value : Text} {negative led : Bool}
    {modifier : Option ModifierText} {c : Candidate}
    (h : c ∈ env.bracketedCandidates name value negative modifier led) :
    env.Makes name c.spec c.tree := by
  obtain ⟨spec, hmem, hspec⟩ := List.mem_filterMap.mp h
  split at hspec
  · exact absurd hspec (by simp)
  · rename_i u hrule
    obtain ⟨⟨tree, strong⟩, htree, rfl⟩ := Option.map_eq_some_iff.mp hspec
    exact .rendered (List.mem_of_mem_filter hmem) hrule (renders_of_bracketed htree)

theorem makes_of_decide? {led : Bool} {found : ResolvedUtility} :
    ∀ {readings : List Reading}, env.decide? led readings = .ok found →
      ∃ name, env.Makes name found.spec found.tree
  | [], h => absurd h (by simp [decide?])
  | r :: rest, h => by
    rw [decide?] at h
    split at h
    · rename_i decision hdecision
      rw [h] at hdecision
      obtain ⟨c, hc, rfl⟩ := exists_mem_of_choose? hdecision
      exact ⟨r.key, makes_of_mem_candidates hc⟩
    · exact makes_of_decide? h

/-- A utility that is found comes with a style under some name. -/
theorem makes_of_utilityOf {head : ClassList.Head} {found : ResolvedUtility}
    (h : env.utilityOf head = .ok found) : ∃ name, env.Makes name found.spec found.tree := by
  cases head with
  | plain name modifier =>
    simp only [utilityOf, utility] at h
    split at h
    · exact absurd h (by simp)
    · exact makes_of_decide? h
  | bracketed lead value modifier closed =>
    simp only [utilityOf, bracketedUtility] at h
    split at h
    · rename_i decision hdecision
      rw [h] at hdecision
      rcases (Option.orElse_eq_some _ _ _).mp hdecision with hchoose | ⟨-, hnegative⟩
      · obtain ⟨c, hc, rfl⟩ := exists_mem_of_choose? hchoose
        exact ⟨_, makes_of_mem_bracketedCandidates hc⟩
      · obtain ⟨key, -, hchoose⟩ := Option.bind_eq_some_iff.mp hnegative
        obtain ⟨c, hc, rfl⟩ := exists_mem_of_choose? hchoose
        exact ⟨_, makes_of_mem_bracketedCandidates hc⟩
    · exact absurd h (by simp)

/-! ## Static utilities -/

/-- Where static utilities are merged, the others are passed over. -/
theorem foldl_statics_of_lookups {specs : List UtilitySpec}
    (h : ∀ spec ∈ specs, spec.isLookup = true) (tree : StyleTree) :
    specs.foldl (fun tree other =>
      match other.rule with
      | .fixed more _ => StyleTree.merge tree more
      | .lookup _ => tree) tree = tree := by
  induction specs with
  | nil => rfl
  | cons spec rest ih =>
    obtain ⟨hspec, hrest⟩ := List.forall_mem_cons.mp h
    rw [List.foldl_cons]
    cases hrule : spec.rule with
    | fixed more flags =>
      rw [UtilitySpec.isLookup, hrule] at hspec
      exact absurd hspec Bool.false_ne_true
    | lookup u => exact ih hrest

/-- If one of the specs is static, the static utilities make its style. -/
theorem rule_of_staticCandidate? : ∀ {specs : List UtilitySpec} {c : Candidate},
    (specs.countP fun spec => !spec.isLookup) ≤ 1 → staticCandidate? specs = some c →
      c.spec ∈ specs ∧ ∃ flags, c.spec.rule = .fixed c.tree flags
  | [], _, _, h => absurd h (by simp [staticCandidate?])
  | spec :: rest, c, hone, h => by
    unfold staticCandidate? at h
    split at h
    · rename_i tree flags hrule
      obtain rfl := Option.some.inj h
      have hstatic : spec.isLookup = false := by rw [UtilitySpec.isLookup, hrule]
      rw [List.countP_cons, hstatic] at hone
      have hlookups : ∀ other ∈ rest, other.isLookup = true := by
        intro other hother
        have hzero : (rest.countP fun spec => !spec.isLookup) = 0 := by simpa using hone
        simpa using List.countP_eq_zero.mp hzero other hother
      refine ⟨List.mem_cons_self, flags, ?_⟩
      have hfold := foldl_statics_of_lookups hlookups tree
      exact hrule.trans (congrArg (UtilityRule.fixed · flags) hfold.symm)
    · rename_i u hrule
      have hrest : (rest.countP fun spec => !spec.isLookup) ≤ 1 :=
        Nat.le_trans (List.Sublist.countP_le (List.sublist_cons_self spec rest)) hone
      obtain ⟨hmem, hfixed⟩ := rule_of_staticCandidate? hrest h
      exact ⟨List.mem_cons_of_mem _ hmem, hfixed⟩

end Environment
end UtilityCss
