import UtilityCss.Proofs.Evaluation.Chain
import UtilityCss.Proofs.Style.Importance

/-!
# Marks of importance and styles

Where no selector is configured for importance, a mark is written into the texts of a style.  It
makes no difference then at which utility of a group that is done, and whether it is done before
or after the styles are merged and wrapped: marking every utility important marks what they come
to together.  Only a change that a variant makes to what it wraps could tell.
-/

namespace UtilityCss

/-! ## Wrapping what is marked -/

open StyleTree (mapScalars)

theorem Wrapping.wrap_mapScalars (f : Text → Text) (w : Wrapping) (tree : StyleTree) :
    w.wrap (mapScalars f tree) = mapScalars f (w.wrap tree) := by
  have hfold : ∀ (templates : List (List Text)) (out : StyleTree),
      templates.foldl (fun out levels =>
          StyleTree.merge out (StyleTree.nestIn levels (mapScalars f tree))) (mapScalars f out) =
        mapScalars f (templates.foldl (fun out levels =>
          StyleTree.merge out (StyleTree.nestIn levels tree)) out) := by
    intro templates
    induction templates with
    | nil => exact fun _ => rfl
    | cons levels rest ih =>
      intro out
      rw [List.foldl_cons, List.foldl_cons, ← ih, ← StyleTree.mapScalars_nestIn, StyleTree.merge,
        StyleTree.merge, StyleTree.mapScalars_overlay]
  exact hfold w.templates []

namespace Wrapper

/-- The wrapper only puts levels around a tree and does nothing else to it. -/
def Postless (w : Wrapper) : Prop := ∀ layer ∈ w.layers, layer.posts = []

theorem postless_identity : identity.Postless := fun _ hlayer => absurd hlayer List.not_mem_nil

theorem Postless.around {outer inner : Wrapper} (houter : outer.Postless)
    (hinner : inner.Postless) : (outer.around inner).Postless := by
  intro layer hlayer
  rcases List.mem_append.mp hlayer with h | h
  · exact houter layer h
  · exact hinner layer h

theorem Postless.group {members : List Wrapper} (hmembers : ∀ m ∈ members, m.Postless) :
    (group members).Postless := by
  have hlayers : ∀ layer ∈ members.flatMap layers, layer.posts = [] := by
    intro layer hlayer
    obtain ⟨m, hm, hlayer⟩ := List.mem_flatMap.mp hlayer
    exact hmembers m hm layer hlayer
  unfold Wrapper.group
  split
  · intro layer hlayer
    rw [List.mem_singleton.mp hlayer]
    exact List.flatMap_eq_nil_iff.mpr hlayers
  · intro layer hlayer
    rw [layers_foldl_around] at hlayer
    exact hlayers layer hlayer

/-- Such a wrapper may be applied before or after the texts are changed. -/
theorem Postless.apply_mapScalars {w : Wrapper} (hw : w.Postless) (f : Text → Text)
    (tree : StyleTree) : w.apply (mapScalars f tree) = mapScalars f (w.apply tree) := by
  have hlayers : ∀ layers : List Wrapping, (∀ layer ∈ layers, layer.posts = []) →
      layers.foldr Wrapping.apply (mapScalars f tree) =
        mapScalars f (layers.foldr Wrapping.apply tree) := by
    intro layers
    induction layers with
    | nil => exact fun _ => rfl
    | cons layer rest ih =>
      intro h
      obtain ⟨hlayer, hrest⟩ := List.forall_mem_cons.mp h
      rw [List.foldr_cons, List.foldr_cons, ih hrest, Wrapping.apply, Wrapping.apply, hlayer]
      exact layer.wrap_mapScalars f _
  by_cases hnil : tree = []
  · rw [hnil]
    rfl
  · rw [w.apply_of_ne_nil hnil, w.apply_of_ne_nil (mt (StyleTree.mapScalars_eq_nil_iff f).mp hnil)]
    exact hlayers w.layers hw

end Wrapper

namespace ClassList

mutual

/-- The variants in an expression, those of groups of variants one by one. -/
def Expr.variants : Expr → List Variant
  | .group _ members _ _ => exprsVariants members
  | .span _ variant none => variant.singles
  | .span _ variant (some child) => variant.singles ++ child.variants
  | .utility .. => []
  | .property .. => []

/-- The variants in expressions. -/
def exprsVariants : List Expr → List Variant
  | [] => []
  | e :: rest => e.variants ++ exprsVariants rest

end

end ClassList

/-- The styles with their tree marked important. -/
def Evaluated.marked (e : Evaluated) : Evaluated := { e with tree := StyleTree.important e.tree }

theorem Evaluated.marked_merge_wrapped (out inner : Evaluated) {w : Wrapper} (hw : w.Postless) :
    out.marked.merge (inner.marked.wrapped w) = (out.merge (inner.wrapped w)).marked := by
  have htree : StyleTree.merge (StyleTree.important out.tree)
      (w.apply (StyleTree.important inner.tree)) =
        StyleTree.important (StyleTree.merge out.tree (w.apply inner.tree)) := by
    have happly : w.apply (StyleTree.important inner.tree) =
        StyleTree.important (w.apply inner.tree) := hw.apply_mapScalars _ _
    rw [happly, StyleTree.important_merge]
  exact congrArg (Evaluated.mk · _) htree

namespace Environment

open ClassList

variable {env : Environment}

/-- No variant among these is registered with something that it does to what it wraps. -/
def Postless (env : Environment) (vs : List Variant) : Prop :=
  ∀ v ∈ vs, ∀ found, env.singleVariant v = .ok found → ∀ spec ∈ found.spec, spec.post = none

theorem Resolution.postless {found : ResolvedVariant} (h : env.Resolution (.ok found))
    (hpost : ∀ spec ∈ found.spec, spec.post = none) : found.wrapper.Postless := by
  intro layer hlayer
  cases h with
  | registered hoffers =>
    rw [List.mem_singleton.mp hlayer]
    exact congrArg Option.toList (hpost _ rfl)
  | selector =>
    rw [List.mem_singleton.mp hlayer]
    rfl

theorem Postless.of_wrapper? {v : Variant} (h : env.Postless v.singles) {w : Wrapper}
    (hw : (env.wrapper? v).value = some w) : w.Postless := by
  have hP : Composable Wrapper.Postless := ⟨Wrapper.postless_identity, .around, .group⟩
  exact hP.of_wrapper?
    (fun v hv found hfound => (resolution_of_singleVariant hfound).postless (h v hv found hfound)) hw

variable {on : Bool} (mode : Mode) (apply : Text → Report StyleTree)

/-- A marked utility adds its style marked, whether it would be marked without that or not. -/
theorem emit_marked (hall : env.settings.important = .all on) (flags : Flags) (marked : Bool)
    (tree : StyleTree) (out : Evaluated) :
    env.emit mode flags true tree out.marked = (env.emit mode flags marked tree out).marked := by
  unfold emit
  rw [hall]
  refine congrArg (Evaluated.mk · _) ?_
  show StyleTree.merge (StyleTree.important out.tree) (StyleTree.important tree) =
    StyleTree.important (StyleTree.merge out.tree _)
  rw [StyleTree.important_merge]
  split
  · rw [StyleTree.important_important]
  · rfl

mutual

/-- Evaluated as important an expression comes to what it comes to otherwise, marked. -/
theorem expr_marked_eq (hall : env.settings.important = .all on) : ∀ {e : Expr} (marked : Bool)
    (out : Evaluated), env.Postless e.variants →
      env.expr mode apply true e out.marked =
        Evaluated.marked <$> env.expr mode apply marked e out
  | .group source members important closed, marked, out, h => by
    rw [expr, expr, map_bind]
    congr 1
    funext _
    exact exprs_marked_eq hall (marked || important) out h
  | .span source variant none, marked, out, h => by
    rw [expr, expr, map_bind]
    rfl
  | .span source variant (some child), marked, out, h => by
    obtain ⟨hvariant, hchild⟩ := List.forall_mem_append.mp h
    have hinner : env.expr mode apply true child {} =
        Evaluated.marked <$> env.expr mode apply marked child {} :=
      expr_marked_eq hall marked {} hchild
    rw [expr, expr, hinner]
    ext : 1
    · cases hw : (env.wrapper? variant).value with
      | none => simp only [Report.value_bind, Report.value_map, hw, Report.value_pure]
      | some w =>
        simp only [Report.value_bind, Report.value_map, hw, Report.value_pure]
        exact Evaluated.marked_merge_wrapped out _ (Postless.of_wrapper? hvariant hw)
    · cases hw : (env.wrapper? variant).value <;>
        simp only [Report.diagnostics_bind, Report.diagnostics_map, hw, Report.diagnostics_pure]
    · cases hw : (env.wrapper? variant).value <;>
        simp only [Report.torn_bind, Report.torn_map, hw, Report.torn_pure]
  | .utility source head important, marked, out, h => by
    rw [expr, expr, map_bind]
    congr 1
    funext _
    cases env.utilityOf head with
    | ok found =>
      simp only [map_bind, map_pure, Bool.true_or, emit_marked mode hall _ (marked || important)]
    | error failure => simp only [map_bind, map_pure]
  | .property source value important closed, marked, out, h => by
    rw [expr, expr, map_bind]
    congr 1
    funext _
    cases Bracketed.declaration? value.text with
    | some declaration =>
      simp only [map_pure, Bool.true_or, emit_marked mode hall _ (marked || important)]
    | none => simp only [map_bind, map_pure]

theorem exprs_marked_eq (hall : env.settings.important = .all on) : ∀ {es : List Expr}
    (marked : Bool) (out : Evaluated), env.Postless (exprsVariants es) →
      env.exprs mode apply true es out.marked =
        Evaluated.marked <$> env.exprs mode apply marked es out
  | [], _, out, _ => rfl
  | e :: rest, marked, out, h => by
    obtain ⟨he, hrest⟩ := List.forall_mem_append.mp h
    rw [exprs, exprs, expr_marked_eq hall marked out he, bind_map_left, map_bind]
    congr 1
    funext out'
    exact exprs_marked_eq hall marked out' hrest

end

end Environment
end UtilityCss
