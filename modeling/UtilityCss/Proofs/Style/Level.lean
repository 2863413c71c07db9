import Mathlib.Data.List.Nodup
import UtilityCss.Proofs.Style.Commutation
import UtilityCss.Proofs.Style.Monoid

/-!
# Keys at a level

A key of merged trees stands at the levels where it stands in one of them, and putting a tree
inside of levels puts these in front of every path.  A declaration on the way would cut off what
is below it.  `DeclaresOnly key` says of a tree that all its declarations have this one key, so
that a path without the key meets none; merging such trees and putting levels with other keys
around them makes such trees again.

If nothing is nested under a key, merging replaces what stands there.  So of several trees that are
merged in order the last one that has the key decides what stands under it.

Trees that are each put inside of the same level are merged inside of it.
-/

namespace UtilityCss
namespace StyleTree

variable {a b tree : StyleTree} {key : Text} {path : List Text}

/-! ## Merging -/

/-- Merging declares nothing new. -/
theorem declares_merge : ∀ {path : List Text} {a b : StyleTree}, WellKeyed b →
    declares path a = false → declares path b = false → declares path (merge a b) = false
  | [], _, _, _, _, _ => rfl
  | key :: path, a, b, hb, hdeclaresa, hdeclaresb => by
    rw [declares] at hdeclaresa hdeclaresb
    rw [declares, merge, lookup_overlay hb.distinct]
    cases hkey : b.lookup key with
    | none => exact hdeclaresa
    | some value =>
      rw [hkey] at hdeclaresb
      cases value with
      | scalar text => exact Bool.noConfusion hdeclaresb
      | list items => exact Bool.noConfusion hdeclaresb
      | tree entries =>
        cases hbase : a.lookup key with
        | none => exact hdeclaresb
        | some previous =>
          rw [hbase] at hdeclaresa
          cases previous with
          | scalar text => exact Bool.noConfusion hdeclaresa
          | list items => exact Bool.noConfusion hdeclaresa
          | tree below => exact declares_merge (hb.value hkey) hdeclaresa hdeclaresb

/-- Where nothing is declared, a key of merged trees is a key of one of them. -/
theorem mem_keysAt_merge (hb : WellKeyed b) (hdeclares : declares path b = false) :
    key ∈ keysAt path (merge a b) ↔ key ∈ keysAt path a ∨ key ∈ keysAt path b := by
  rw [keysAt, nested?_merge hb, hdeclares, if_neg Bool.false_ne_true, keysAt, keysAt]
  cases nested? path a with
  | none => cases nested? path b <;> simp [Option.merge]
  | some entries =>
    cases nested? path b with
    | none => simp [Option.merge]
    | some incoming => exact mem_keys_merge

/-! ## Levels -/

theorem lookup_nest (k level : Text) (tree : StyleTree) :
    (nest level tree).lookup k = if k = level then some (.tree tree) else none := by
  rw [nest, List.lookup_cons]
  by_cases h : k = level
  · rw [if_pos h, h, beq_self_eq_true]
  · rw [if_neg h, beq_false_of_ne h]
    rfl

theorem keysAt_nest (k level : Text) (path : List Text) (tree : StyleTree) :
    keysAt (k :: path) (nest level tree) = if k = level then keysAt path tree else [] := by
  rw [keysAt, nested?, lookup_nest]
  by_cases h : k = level
  · rw [if_pos h, if_pos h]
    rfl
  · rw [if_neg h, if_neg h]
    rfl

theorem declares_nest (k level : Text) (path : List Text) (tree : StyleTree) :
    declares (k :: path) (nest level tree) = if k = level then declares path tree else false := by
  rw [declares, lookup_nest]
  by_cases h : k = level
  · rw [if_pos h, if_pos h]
  · rw [if_neg h, if_neg h]

/-- A key that is none of the levels stands behind them. -/
theorem mem_keysAt_nestIn {levels : List Text} (hkey : key ∉ levels) :
    key ∈ keysAt path (nestIn levels tree) ↔
      ∃ below, path = levels ++ below ∧ key ∈ keysAt below tree := by
  induction levels generalizing path with
  | nil => exact ⟨fun h => ⟨path, rfl, h⟩, fun ⟨_, hbelow, h⟩ => hbelow ▸ h⟩
  | cons level rest ih =>
    obtain ⟨hlevel, hrest⟩ := not_or.mp (mt List.mem_cons.mpr hkey)
    show key ∈ keysAt path (nest level (nestIn rest tree)) ↔ _
    cases path with
    | nil =>
      refine ⟨fun h => absurd (List.mem_singleton.mp h) hlevel, ?_⟩
      rintro ⟨below, hbelow, -⟩
      cases hbelow
    | cons k path =>
      rw [keysAt_nest]
      by_cases hk : k = level
      · rw [if_pos hk, ih hrest, hk]
        simp only [List.cons_append, List.cons.injEq, true_and]
      · rw [if_neg hk]
        refine ⟨fun h => absurd h List.not_mem_nil, ?_⟩
        rintro ⟨below, hbelow, -⟩
        exact absurd (List.cons.inj hbelow).1 hk

/-! ## Trees with one declared key -/

/-- A path without the key meets no declaration. -/
def DeclaresOnly (key : Text) (tree : StyleTree) : Prop :=
  ∀ path, key ∉ path → declares path tree = false

theorem declaresOnly_nil (key : Text) : DeclaresOnly key [] := by
  intro path _
  cases path <;> rfl

theorem DeclaresOnly.nestIn (h : DeclaresOnly key tree) (levels : List Text) :
    DeclaresOnly key (nestIn levels tree) := by
  induction levels with
  | nil => exact h
  | cons level rest ih =>
    show DeclaresOnly key (nest level _)
    intro path hpath
    cases path with
    | nil => rfl
    | cons k path =>
      rw [declares_nest]
      split
      · exact ih path fun hmem => hpath (List.mem_cons_of_mem k hmem)
      · rfl

section

variable {trees : List StyleTree} {base : StyleTree} (hkeyed : ∀ t ∈ trees, WellKeyed t)
  (honly : ∀ t ∈ trees, DeclaresOnly key t)

include hkeyed honly

theorem declaresOnly_foldl_merge (hbase : DeclaresOnly key base) :
    DeclaresOnly key (trees.foldl merge base) := by
  induction trees generalizing base with
  | nil => exact hbase
  | cons t rest ih =>
    obtain ⟨ht, hrest⟩ := List.forall_mem_cons.mp hkeyed
    obtain ⟨htonly, hrestonly⟩ := List.forall_mem_cons.mp honly
    exact ih hrest hrestonly fun path hpath =>
      declares_merge ht (hbase path hpath) (htonly path hpath)

/-- A key stands in merged trees exactly where it stands in one of them. -/
theorem mem_keysAt_foldl_merge (hpath : key ∉ path) :
    key ∈ keysAt path (trees.foldl merge base) ↔
      key ∈ keysAt path base ∨ ∃ t ∈ trees, key ∈ keysAt path t := by
  induction trees generalizing base with
  | nil => simp
  | cons t rest ih =>
    obtain ⟨ht, hrest⟩ := List.forall_mem_cons.mp hkeyed
    obtain ⟨htonly, hrestonly⟩ := List.forall_mem_cons.mp honly
    rw [List.foldl_cons, ih hrest hrestonly, mem_keysAt_merge ht (htonly path hpath), or_assoc]
    simp only [List.mem_cons, exists_eq_or_imp]

end

/-! ## Flat keys -/

section

open Keyed (Distinct)

variable {trees : List StyleTree}

/-- Nothing is nested under the key. -/
def FlatAt (key : Text) (tree : StyleTree) : Prop := ∀ v ∈ tree.lookup key, v.isTree = false

instance (key : Text) : DecidablePred (FlatAt key) := fun tree =>
  inferInstanceAs (Decidable (∀ v ∈ tree.lookup key, v.isTree = false))

theorem flatAt_of_declarations (h : ∀ entry ∈ tree, entry.2.isTree = false) (key : Text) :
    FlatAt key tree :=
  fun _ hv => h _ (Keyed.mem_of_lookup hv)

/-- A declaration replaces what was there. -/
theorem lookup_merge (hb : Distinct b) (hflat : FlatAt key b) :
    (merge a b).lookup key = (b.lookup key).or (a.lookup key) := by
  rw [merge, lookup_overlay hb]
  cases hv : b.lookup key with
  | none => rfl
  | some v =>
    have hleaf := hflat v hv
    cases v with
    | tree entries => cases hleaf
    | scalar text => cases a.lookup key <;> rfl
    | list items => cases a.lookup key <;> rfl

/-- Of several declarations the last one counts. -/
theorem lookup_foldl_merge (htrees : ∀ t ∈ trees, Distinct t)
    (hflat : ∀ t ∈ trees, FlatAt key t) (base : StyleTree) :
    (trees.foldl merge base).lookup key =
      (trees.reverse.findSome? fun t => t.lookup key).or (base.lookup key) := by
  induction trees generalizing base with
  | nil => rfl
  | cons t rest ih =>
    obtain ⟨ht, hrest⟩ := List.forall_mem_cons.mp htrees
    obtain ⟨hown, hothers⟩ := List.forall_mem_cons.mp hflat
    rw [List.foldl_cons, ih hrest hothers, lookup_merge ht hown, List.reverse_cons,
      List.findSome?_append, Option.or_assoc]
    simp

theorem flatAt_nest {selector : Text} (h : key ≠ selector) : FlatAt key (nest selector tree) := by
  intro v hv
  rw [lookup_nest, if_neg h] at hv
  cases hv

theorem FlatAt.important (h : FlatAt key tree) : FlatAt key (important tree) := by
  intro v hv
  rw [StyleTree.important, lookup_mapScalars] at hv
  obtain ⟨own, hown, rfl⟩ := Option.map_eq_some_iff.mp hv
  have hleaf := h own hown
  cases own with
  | tree entries => cases hleaf
  | scalar text => rfl
  | list items => rfl

theorem FlatAt.foldl_merge (hdistinct : ∀ t ∈ trees, Distinct t)
    (hflat : ∀ t ∈ trees, FlatAt key t) : FlatAt key (trees.foldl merge []) := by
  intro v hv
  rw [Option.mem_def, lookup_foldl_merge hdistinct hflat, List.lookup_nil, Option.or_none] at hv
  obtain ⟨t, ht, hown⟩ := List.exists_of_findSome?_eq_some hv
  exact hflat t (List.mem_reverse.mp ht) v hown

/-! ## Sequences of trees -/

theorem foldl_merge_ne_nil {base : StyleTree} (hbase : base ≠ []) (trees : List StyleTree) :
    trees.foldl merge base ≠ [] := by
  induction trees generalizing base with
  | nil => exact hbase
  | cons t rest ih => exact ih fun h => hbase ((merge_eq_nil_iff t base).mp h).1

/-- Trees under one level are merged under it. -/
theorem foldl_merge_nest (level : Text) (hnil : trees ≠ [])
    (hdistinct : ∀ t ∈ trees, Distinct t) :
    (trees.map (nest level)).foldl merge [] = nest level (trees.foldl merge []) := by
  have hbehind : ∀ (rest : List StyleTree) (base : StyleTree),
      (rest.map (nest level)).foldl merge (nest level base) =
        nest level (rest.foldl merge base) := by
    intro rest
    induction rest with
    | nil => exact fun _ => rfl
    | cons t rest ih =>
      intro base
      have hmerge : merge (nest level base) (nest level t) = nest level (merge base t) :=
        (nestIn_merge [level] base t).symm
      rw [List.map_cons, List.foldl_cons, hmerge, ih, List.foldl_cons]
  cases trees with
  | nil => exact absurd rfl hnil
  | cons t rest =>
    have hlevel : Distinct (nest level t) := List.nodup_singleton _
    rw [List.map_cons, List.foldl_cons, List.foldl_cons, nil_merge hlevel,
      nil_merge (List.forall_mem_cons.mp hdistinct).1, hbehind]

end

end StyleTree
end UtilityCss
