import UtilityCss.Evaluation.Basic
import UtilityCss.Proofs.Evaluation.Chain
import UtilityCss.Proofs.Evaluation.Origin
import UtilityCss.Proofs.Evaluation.Variant
import UtilityCss.Proofs.Registry.WellKeyed

/-!
# Styles without repeated keys

Evaluating merges, nests and writes under keys, and nothing else.  So if a registry is
well-keyed, no style that comes out of it is a tree in which a key stands twice.
-/

namespace UtilityCss

open StyleTree (WellKeyed)

/-! ## Wrappers -/

namespace Wrapper

/-- Everything that the layers do to trees keeps them well-keyed. -/
def KeepsKeys (w : Wrapper) : Prop :=
  ∀ layer ∈ w.layers, ∀ post ∈ layer.posts, UtilityCss.KeepsKeys post

theorem keepsKeys_identity : identity.KeepsKeys := fun _ hlayer => absurd hlayer List.not_mem_nil

theorem KeepsKeys.around {outer inner : Wrapper} (houter : outer.KeepsKeys)
    (hinner : inner.KeepsKeys) : (outer.around inner).KeepsKeys := by
  intro layer hlayer
  rcases List.mem_append.mp hlayer with h | h
  · exact houter layer h
  · exact hinner layer h

theorem KeepsKeys.group {members : List Wrapper} (hmembers : ∀ m ∈ members, m.KeepsKeys) :
    (group members).KeepsKeys := by
  have hlayers : ∀ layer ∈ members.flatMap layers, ∀ post ∈ layer.posts,
      UtilityCss.KeepsKeys post := by
    intro layer hlayer
    obtain ⟨m, hm, hlayer⟩ := List.mem_flatMap.mp hlayer
    exact hmembers m hm layer hlayer
  unfold Wrapper.group
  split
  · intro layer hlayer post hpost
    rw [List.mem_singleton.mp hlayer] at hpost
    obtain ⟨own, hown, hpost⟩ := List.mem_flatMap.mp hpost
    exact hlayers own hown post hpost
  · intro layer hlayer
    rw [layers_foldl_around] at hlayer
    exact hlayers layer hlayer

end Wrapper

namespace StyleTree.WellKeyed

variable {tree : StyleTree}

theorem posts {posts : List (StyleTree → StyleTree)} (htree : WellKeyed tree)
    (hposts : ∀ post ∈ posts, KeepsKeys post) :
    WellKeyed (posts.foldl (fun tree post => post tree) tree) := by
  induction posts generalizing tree with
  | nil => exact htree
  | cons post rest ih =>
    obtain ⟨hpost, hrest⟩ := List.forall_mem_cons.mp hposts
    exact ih (hpost tree htree) hrest

/-- Wrapping keeps a tree well-keyed. -/
theorem wrapped {w : Wrapper} (hw : w.KeepsKeys) (htree : WellKeyed tree) :
    WellKeyed (w.apply tree) := by
  have hlayers : ∀ layers : List Wrapping,
      (∀ layer ∈ layers, ∀ post ∈ layer.posts, KeepsKeys post) →
        WellKeyed (layers.foldr Wrapping.apply tree) := by
    intro layers
    induction layers with
    | nil => exact fun _ => htree
    | cons layer rest ih =>
      intro h
      obtain ⟨hlayer, hrest⟩ := List.forall_mem_cons.mp h
      exact layer.wellKeyed_wrap ((ih hrest).posts hlayer)
  unfold Wrapper.apply
  split
  · exact htree
  · exact hlayers w.layers hw

end StyleTree.WellKeyed

namespace Environment

variable {env : Environment}

/-! ## Variants -/

theorem Resolution.keepsKeys (hregistry : env.registry.WellKeyed) {found : ResolvedVariant}
    (h : env.Resolution (.ok found)) : found.wrapper.KeepsKeys := by
  cases h with
  | registered hoffers =>
    obtain ⟨name, hspec, -⟩ := hoffers
    intro layer hlayer post hpost
    rw [List.mem_singleton.mp hlayer] at hpost
    exact hregistry.variant name _ hspec post (Option.mem_toList.mp hpost)
  | selector =>
    intro layer hlayer post hpost
    rw [List.mem_singleton.mp hlayer] at hpost
    exact absurd hpost List.not_mem_nil

/-! ## Utilities -/

theorem wellKeyed_of_finish? {u : LookupUtility} (hu : u.WellKeyed) {text : Text}
    {info : RenderInfo} {tree : StyleTree} (h : u.finish? text info = some tree) :
    WellKeyed tree := by
  unfold LookupUtility.finish? at h
  dsimp only at h
  split at h
  · exact absurd h (by simp)
  · split at h
    · rename_i post hsome
      rw [← Option.some.inj h]
      exact hu.post post hsome _ (hu.render text info)
    · rw [← Option.some.inj h]
      exact hu.render text info

theorem wellKeyed_of_staticCandidate? : ∀ {specs : List UtilitySpec} {c : Candidate},
    (∀ spec ∈ specs, spec.WellKeyed) → staticCandidate? specs = some c → WellKeyed c.tree
  | [], _, _, h => absurd h (by simp [staticCandidate?])
  | spec :: rest, c, hspecs, h => by
    obtain ⟨hspec, hrest⟩ := List.forall_mem_cons.mp hspecs
    unfold staticCandidate? at h
    split at h
    · rename_i tree flags hrule
      obtain rfl := Option.some.inj h
      have htree : WellKeyed tree := by rwa [UtilitySpec.WellKeyed, hrule] at hspec
      -- the trees of the others are merged in
      clear h hspec hspecs hrule
      dsimp only
      induction rest generalizing tree with
      | nil => exact htree
      | cons other rest ih =>
        obtain ⟨hother, hrest⟩ := List.forall_mem_cons.mp hrest
        rw [List.foldl_cons]
        refine ih hrest _ ?_
        split
        · rename_i more _ hrule
          rw [UtilitySpec.WellKeyed, hrule] at hother
          exact htree.merge hother
        · exact htree
    · exact wellKeyed_of_staticCandidate? hrest h

section

variable (hregistry : env.registry.WellKeyed)
include hregistry

/-- The style of a utility that is found is well-keyed. -/
theorem wellKeyed_of_utilityOf {head : ClassList.Head} {found : ResolvedUtility}
    (h : env.utilityOf head = .ok found) : WellKeyed found.tree := by
  obtain ⟨name, hmakes⟩ := makes_of_utilityOf h
  have hspecs := hregistry.utility name
  generalize found.spec = spec, found.tree = tree at hmakes
  cases hmakes with
  | static hstatic =>
    exact wellKeyed_of_staticCandidate?
      (fun spec hspec => hspecs spec (List.mem_of_mem_filter hspec)) hstatic
  | rendered hmem hrule hrenders =>
    obtain ⟨text, info, hfinish⟩ := hrenders
    have hkeyed := hspecs _ hmem
    rw [UtilitySpec.WellKeyed, hrule] at hkeyed
    exact wellKeyed_of_finish? hkeyed hfinish

/-! ## Variants -/

/-- Wrappers of variants that resolve keep trees well-keyed. -/
theorem keepsKeys_of_wrapper? {v : ClassList.Variant} {w : Wrapper}
    (hw : (env.wrapper? v).value = some w) : w.KeepsKeys := by
  have hP : Composable Wrapper.KeepsKeys := ⟨Wrapper.keepsKeys_identity, .around, .group⟩
  exact hP.of_wrapper? (fun _ _ _ h => (resolution_of_singleVariant h).keepsKeys hregistry) hw

end

/-! ## Directives -/

section

variable {apply : Text → Report StyleTree}

/-- What is nested under a key, or in the variant of a screen, is merged in. -/
theorem wellKeyed_nested (hregistry : env.registry.WellKeyed) (key : Text) {out inner : StyleTree}
    (hout : WellKeyed out) (hinner : WellKeyed inner) :
    WellKeyed (match Directive.screen? key with
      | none => (pure (StyleTree.merge out (StyleTree.nest key inner)) : Report StyleTree)
      | some name =>
        match env.variant name none with
        | .ok found => pure (StyleTree.merge out (found.wrapper.apply inner))
        | .error _ => pure out).value := by
  split
  · exact hout.merge (hinner.nest key)
  · rename_i name _
    split
    · rename_i found hfound
      have hresolution : env.Resolution (env.variant name none) :=
        resolution_variant (by simp [Reading.stripModifier?])
      rw [hfound] at hresolution
      exact hout.merge (hinner.wrapped (hresolution.keepsKeys hregistry))
    · exact hout

mutual

theorem wellKeyed_expandEntries (hregistry : env.registry.WellKeyed)
    (happly : ∀ t, WellKeyed (apply t).value) :
    ∀ {entries : List (Text × StyleValue)} {out : StyleTree}, WellKeyed entries → WellKeyed out →
      WellKeyed (Directive.expandEntries env apply entries out).value
  | [], _, _, hout => hout
  | (key, value) :: rest, out, ⟨_, hvalue, hrest⟩, hout => by
    rw [Directive.expandEntries, Report.value_bind]
    exact wellKeyed_expandEntries hregistry happly hrest
      (wellKeyed_expandEntry hregistry happly key hvalue hout)

theorem wellKeyed_expandEntry (hregistry : env.registry.WellKeyed)
    (happly : ∀ t, WellKeyed (apply t).value) (key : Text) :
    ∀ {value : StyleValue} {out : StyleTree}, StyleTree.WellKeyedValue value → WellKeyed out →
      WellKeyed (Directive.expandEntry env apply key value out).value
  | .scalar text, out, _, hout => by
    rw [Directive.expandEntry]
    split
    · exact hout.merge (happly _)
    · split
      · exact hout
      · exact hout.put key trivial
  | .list items, out, _, hout => by
    rw [Directive.expandEntry]
    split
    · exact hout.merge (happly _)
    · split
      · exact hout
      · exact hout.put key trivial
  | .tree body, out, hbody, hout => by
    rw [Directive.expandEntry]
    split
    · exact hout.merge (happly _)
    · dsimp only
      split
      · exact wellKeyed_nested hregistry key hout
          (wellKeyed_expandEntries hregistry happly hbody WellKeyed.nil)
      · exact wellKeyed_nested hregistry key hout hbody

end

end

end Environment

/-! ## Class lists -/

/-- Both trees are well-keyed. -/
structure Evaluated.WellKeyed (e : Evaluated) : Prop where
  tree : StyleTree.WellKeyed e.tree
  important : StyleTree.WellKeyed e.important

theorem Evaluated.WellKeyed.distinct {e : Evaluated} (h : e.WellKeyed) : e.Distinct :=
  ⟨h.tree.distinct, h.important.distinct⟩

theorem Evaluated.wellKeyed_empty : Evaluated.WellKeyed {} := ⟨trivial, trivial⟩

theorem Evaluated.WellKeyed.merge {e f : Evaluated} (he : e.WellKeyed) (hf : f.WellKeyed) :
    (e.merge f).WellKeyed := ⟨he.tree.merge hf.tree, he.important.merge hf.important⟩

theorem Evaluated.WellKeyed.wrapped {e : Evaluated} {w : Wrapper} (he : e.WellKeyed)
    (hw : w.KeepsKeys) : (e.wrapped w).WellKeyed := ⟨he.tree.wrapped hw, he.important.wrapped hw⟩

namespace Environment

variable {env : Environment} {mode : Mode} {apply : Text → Report StyleTree}

theorem wellKeyed_styleOf (hregistry : env.registry.WellKeyed)
    (happly : ∀ t, WellKeyed (apply t).value) {found : ResolvedUtility}
    (hfound : WellKeyed found.tree) : WellKeyed (env.styleOf apply found).value := by
  unfold styleOf
  split
  · exact hfound
  · unfold Directive.expand
    split
    · exact wellKeyed_expandEntries hregistry happly hfound WellKeyed.nil
    · exact hfound

theorem wellKeyed_emit (flags : Flags) (marked : Bool) {tree : StyleTree} {out : Evaluated}
    (htree : WellKeyed tree) (hout : out.WellKeyed) :
    (env.emit mode flags marked tree out).WellKeyed := by
  rcases env.emit_cases mode flags marked tree with himportant | ⟨added, rfl | rfl, hadded⟩
  · rw [himportant]
    exact ⟨hout.tree, hout.important.merge htree⟩
  · rw [hadded]
    exact ⟨hout.tree.merge htree, hout.important⟩
  · rw [hadded]
    exact ⟨hout.tree.merge htree.important, hout.important⟩

mutual

/-- Adding the styles of an expression keeps the styles well-keyed. -/
theorem wellKeyed_expr (hregistry : env.registry.WellKeyed)
    (happly : ∀ t, WellKeyed (apply t).value) : ∀ (e : ClassList.Expr) (important : Bool)
      {out : Evaluated}, out.WellKeyed → (env.expr mode apply important e out).value.WellKeyed
  | .group _ members marked _, important, _, hout => by
    rw [expr, Report.value_bind]
    exact wellKeyed_exprs hregistry happly members (important || marked) hout
  | .span _ _ none, _, _, hout => hout
  | .span source variant (some child), important, out, hout => by
    have hinner := wellKeyed_expr hregistry happly child important Evaluated.wellKeyed_empty
    rw [expr, Report.value_bind, Report.value_bind]
    split
    · rename_i w hw
      exact hout.merge (hinner.wrapped (keepsKeys_of_wrapper? hregistry hw))
    · exact hout
  | .utility _ head marked, important, out, hout => by
    rw [expr, Report.value_bind]
    split
    · rename_i found hfound
      rw [Report.value_bind]
      exact wellKeyed_emit _ _
        (wellKeyed_styleOf hregistry happly (wellKeyed_of_utilityOf hregistry hfound)) hout
    · exact hout
  | .property _ value marked _, important, out, hout => by
    rw [expr, Report.value_bind]
    split
    · exact wellKeyed_emit _ _ (WellKeyed.scalar _ _) hout
    · exact hout

theorem wellKeyed_exprs (hregistry : env.registry.WellKeyed)
    (happly : ∀ t, WellKeyed (apply t).value) : ∀ (es : List ClassList.Expr) (important : Bool)
      {out : Evaluated}, out.WellKeyed → (env.exprs mode apply important es out).value.WellKeyed
  | [], _, _, hout => hout
  | e :: rest, important, _, hout => by
    rw [exprs, Report.value_bind]
    exact wellKeyed_exprs hregistry happly rest important
      (wellKeyed_expr hregistry happly e important hout)

end

/-- The styles of a class list that is applied are well-keyed. -/
theorem wellKeyed_applyWithin (hregistry : env.registry.WellKeyed) (classes : Text) :
    ∀ levels, WellKeyed (env.applyWithin levels classes).value
  | 0 => trivial
  | levels + 1 => by
    have hresult : (env.evaluateIn .applied (env.applyWithin levels)
        (splitImportant classes).1).value.WellKeyed :=
      wellKeyed_exprs hregistry (fun t => wellKeyed_applyWithin hregistry t levels) _ false
        Evaluated.wellKeyed_empty
    rw [applyWithin, Report.value_bind]
    show WellKeyed (if _ then _ else _)
    split
    · exact hresult.tree.important
    · exact hresult.tree

/-- The styles of a class list are well-keyed. -/
theorem wellKeyed_evaluate (hregistry : env.registry.WellKeyed) (input : Text) :
    (env.evaluate input).value.WellKeyed :=
  wellKeyed_exprs hregistry (fun t => wellKeyed_applyWithin hregistry t applyLevels) _ false
    Evaluated.wellKeyed_empty

end Environment
end UtilityCss
