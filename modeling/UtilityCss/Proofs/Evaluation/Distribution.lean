import UtilityCss.Proofs.Evaluation.Contribution
import UtilityCss.Proofs.Evaluation.Marking
import UtilityCss.Proofs.Style.Commutation

/-!
# Wrapping and merging

What several templates make of a tree is a table with one entry for each of them, as long as the
templates begin with different levels: the trees in different entries never meet.  So wrapping two
trees and merging the outcomes is merging them and wrapping that, in one layer and in any number
of layers, and the entries keep their order.

Two templates that begin with the same level, or one of several that adds no level at all, do not
do that: what the first makes of the second tree would come before what the second makes of the
first.
-/

namespace UtilityCss

open StyleTree (nest nestIn WellKeyed)
open Keyed (Distinct)

/-! ## Layers -/

namespace StyleTree

variable {rows : List (Text × List Text)}

/-- The tree in the levels of each row, under the key of the row. -/
def inRows (rows : List (Text × List Text)) (tree : StyleTree) : StyleTree :=
  Keyed.mapValues (fun levels => .tree (nestIn levels tree)) rows

theorem distinct_inRows (h : Distinct rows) (tree : StyleTree) : Distinct (inRows rows tree) := by
  rw [Distinct, inRows, Keyed.keys_mapValues]
  exact h

/-- Rows are merged row by row. -/
theorem merge_inRows (h : Distinct rows) (a b : StyleTree) :
    merge (inRows rows a) (inRows rows b) = inRows rows (merge a b) := by
  refine Keyed.eq_of_keys_of_lookup (distinct_inRows h _) ?_ fun key => ?_
  · rw [merge, keys_overlay (distinct_inRows h b), inRows, inRows, inRows, Keyed.keys_mapValues,
      Keyed.keys_mapValues, Keyed.keys_mapValues]
    simp
  · rw [merge, lookup_overlay (distinct_inRows h b), inRows, inRows, inRows,
      Keyed.lookup_mapValues, Keyed.lookup_mapValues, Keyed.lookup_mapValues]
    cases rows.lookup key with
    | none => rfl
    | some levels => exact congrArg (some ∘ StyleValue.tree) (nestIn_merge levels a b).symm

end StyleTree

namespace Wrapping

/-- The templates begin with different levels, if there are several. -/
def Apart (layer : Wrapping) : Prop :=
  layer.templates.Pairwise fun s t => ∃ a ∈ s.head?, ∃ b ∈ t.head?, a ≠ b

instance : DecidablePred Apart := fun layer =>
  inferInstanceAs (Decidable (layer.templates.Pairwise fun s t =>
    ∃ a ∈ s.head?, ∃ b ∈ t.head?, a ≠ b))

/-- Templates that are apart are rows, or there is one that adds nothing. -/
theorem Apart.templates_eq {layer : Wrapping} (h : layer.Apart) :
    layer.templates = [[]] ∨ ∃ rows : List (Text × List Text), Distinct rows ∧
      layer.templates = rows.map fun row => row.1 :: row.2 := by
  unfold Apart at h
  generalize layer.templates = templates at h ⊢
  induction templates with
  | nil => exact Or.inr ⟨[], Keyed.distinct_nil, rfl⟩
  | cons template rest ih =>
    obtain ⟨hfirst, hrest⟩ := List.pairwise_cons.mp h
    rcases ih hrest with rfl | ⟨rows, hrows, rfl⟩
    · -- nothing can be apart from a template without levels
      obtain ⟨-, -, b, hb, -⟩ := hfirst [] List.mem_cons_self
      cases hb
    · cases template with
      | nil =>
        cases rows with
        | nil => exact Or.inl rfl
        | cons row rows =>
          obtain ⟨a, ha, -⟩ := hfirst (row.1 :: row.2) List.mem_cons_self
          cases ha
      | cons key levels =>
        refine Or.inr ⟨(key, levels) :: rows, List.nodup_cons.mpr ⟨fun hkey => ?_, hrows⟩, rfl⟩
        obtain ⟨row, hrow, hrowkey⟩ := List.mem_map.mp hkey
        obtain ⟨a, ha, b, hb, hne⟩ := hfirst (row.1 :: row.2) (List.mem_map_of_mem hrow)
        cases ha
        cases hb
        exact hne hrowkey.symm

theorem wrap_of_rows {layer : Wrapping} {rows : List (Text × List Text)} (hrows : Distinct rows)
    (h : layer.templates = rows.map fun row => row.1 :: row.2) (tree : StyleTree) :
    layer.wrap tree = StyleTree.inRows rows tree := by
  have hentries : (layer.templates.map fun levels => nestIn levels tree) =
      (StyleTree.inRows rows tree).map fun entry => [entry] := by
    rw [h, List.map_map, StyleTree.inRows, Keyed.mapValues, List.map_map]
    rfl
  rw [wrap_eq_foldl, hentries, StyleTree.foldl_merge_entries,
    StyleTree.nil_merge (StyleTree.distinct_inRows hrows tree)]

/-- A layer of templates that are apart may be put around two trees before they are merged. -/
theorem Apart.wrap_merge {layer : Wrapping} (h : layer.Apart) {a : StyleTree} (ha : Distinct a)
    {b : StyleTree} (hb : Distinct b) :
    layer.wrap (StyleTree.merge a b) = StyleTree.merge (layer.wrap a) (layer.wrap b) := by
  rcases h.templates_eq with hsingle | ⟨rows, hrows, htemplates⟩
  · have hwrap : ∀ {tree : StyleTree}, Distinct tree → layer.wrap tree = tree := by
      intro tree htree
      rw [wrap_eq_foldl, hsingle]
      exact StyleTree.nil_merge htree
    rw [hwrap ha, hwrap hb, hwrap (StyleTree.distinct_merge b ha)]
  · rw [wrap_of_rows hrows htemplates, wrap_of_rows hrows htemplates,
      wrap_of_rows hrows htemplates, StyleTree.merge_inRows hrows]

end Wrapping

/-! ## Wrappers -/

namespace Wrapper

/-- In every layer the templates begin with different levels. -/
def Apart (w : Wrapper) : Prop := ∀ layer ∈ w.layers, layer.Apart

variable {w : Wrapper}

theorem Postless.apply_eq (hw : w.Postless) {tree : StyleTree} (htree : tree ≠ []) :
    w.apply tree = w.layers.foldr Wrapping.wrap tree := by
  rw [w.apply_of_ne_nil htree]
  refine List.foldr_ext _ _ _ fun layer hlayer tree => ?_
  rw [Wrapping.apply, hw layer hlayer]
  rfl

/-- Layers of templates that are apart may be put around two trees before they are merged. -/
theorem foldr_wrap_merge {a b : StyleTree} (ha : Distinct a) (hb : Distinct b) :
    ∀ {layers : List Wrapping}, (∀ layer ∈ layers, layer.Apart) →
      layers.foldr Wrapping.wrap (StyleTree.merge a b) =
        StyleTree.merge (layers.foldr Wrapping.wrap a) (layers.foldr Wrapping.wrap b)
  | [], _ => rfl
  | layer :: rest, h => by
    obtain ⟨hlayer, hrest⟩ := List.forall_mem_cons.mp h
    have hdistinct : ∀ {tree : StyleTree}, Distinct tree →
        Distinct (rest.foldr Wrapping.wrap tree) := by
      intro tree htree
      cases rest with
      | nil => exact htree
      | cons inner rest => exact inner.distinct_wrap _
    rw [List.foldr_cons, foldr_wrap_merge ha hb hrest,
      hlayer.wrap_merge (hdistinct ha) (hdistinct hb)]
    rfl

/-- Such layers distribute over merging, and what is empty stays away on both sides. -/
theorem Apart.apply_merge (hw : w.Apart) (hpostless : w.Postless) {a b : StyleTree}
    (ha : Distinct a) (hb : Distinct b) :
    w.apply (StyleTree.merge a b) = StyleTree.merge (w.apply a) (w.apply b) := by
  by_cases hanil : a = []
  · rw [hanil, StyleTree.nil_merge hb, apply_nil, StyleTree.nil_merge (w.distinct_apply hb)]
  by_cases hbnil : b = []
  · rw [hbnil, apply_nil, StyleTree.merge_nil, StyleTree.merge_nil]
  have hmerge : StyleTree.merge a b ≠ [] :=
    fun h => hanil ((StyleTree.merge_eq_nil_iff b a).mp h).1
  rw [hpostless.apply_eq hanil, hpostless.apply_eq hbnil, hpostless.apply_eq hmerge,
    foldr_wrap_merge ha hb hw]

end Wrapper

/-! ## Styles -/

namespace Evaluated

theorem merge_wrapped {w : Wrapper} (hw : w.Apart) (hpostless : w.Postless) {e f : Evaluated}
    (he : e.Distinct) (hf : f.Distinct) :
    (e.merge f).wrapped w = (e.wrapped w).merge (f.wrapped w) := by
  rw [wrapped, merge, hw.apply_merge hpostless he.tree hf.tree,
    hw.apply_merge hpostless he.important hf.important]
  rfl

/-- Styles may be wrapped one by one, and merged then. -/
theorem foldl_merge_wrapped {w : Wrapper} (hw : w.Apart) (hpostless : w.Postless)
    {es : List Evaluated} (hes : ∀ e ∈ es, e.Distinct) {out : Evaluated} (hout : out.Distinct) :
    (es.foldl merge out).wrapped w =
      (es.map fun e => e.wrapped w).foldl merge (out.wrapped w) := by
  induction es generalizing out with
  | nil => rfl
  | cons e rest ih =>
    obtain ⟨he, hrest⟩ := List.forall_mem_cons.mp hes
    rw [List.foldl_cons, ih hrest (hout.merge e), merge_wrapped hw hpostless hout he]
    rfl

end Evaluated

namespace Environment

open ClassList

variable {env : Environment} {mode : Mode} {apply : Text → Report StyleTree}

/-! ## Expressions one by one -/

section

variable (hregistry : env.registry.WellKeyed)
  (happly : ∀ t, StyleTree.WellKeyed (apply t).value) {important : Bool}

include hregistry happly

/-- If what is added by each expression agrees, the styles are those of the expressions, merged. -/
theorem value_exprs_eq_foldl : ∀ {es : List ClassList.Expr},
    (∀ e ∈ es, (env.exprContributions mode apply important e).Pairwise Evaluated.Agree) →
      ∀ out : Evaluated, (env.exprs mode apply important es out).value =
        (es.map fun e => (env.expr mode apply important e {}).value).foldl Evaluated.merge out
  | [], _, _ => rfl
  | e :: rest, hagree, out => by
    obtain ⟨he, hrest⟩ := List.forall_mem_cons.mp hagree
    have hfirst : (env.expr mode apply important e out).value =
        out.merge (env.expr mode apply important e {}).value := by
      rw [value_expr hregistry happly, value_expr hregistry happly]
      exact Evaluated.foldl_merge (wellKeyed_exprContributions hregistry happly e important) he out
    rw [exprs, Report.value_bind, value_exprs_eq_foldl hrest, hfirst, List.map_cons,
      List.foldl_cons]

end

/-- The notes on expressions are those on each of them, in order. -/
theorem diagnostics_exprs (important : Bool) : ∀ (es : List ClassList.Expr) (out : Evaluated),
    (env.exprs mode apply important es out).diagnostics =
      es.flatMap fun e => (env.expr mode apply important e {}).diagnostics
  | [], _ => rfl
  | e :: rest, out => by
    rw [exprs, Report.diagnostics_bind, diagnostics_exprs important rest,
      (sameNotes_expr e important out {}).1, List.flatMap_cons]

theorem torn_exprs_eq_any (important : Bool) : ∀ (es : List ClassList.Expr) (out : Evaluated),
    (env.exprs mode apply important es out).torn =
      es.any fun e => (env.expr mode apply important e {}).torn
  | [], _ => rfl
  | e :: rest, out => by
    rw [exprs, Report.torn_bind, torn_exprs_eq_any important rest,
      (sameNotes_expr e important out {}).2, List.any_cons]

end Environment
end UtilityCss
