import UtilityCss.Proofs.Keyed
import UtilityCss.Style.Tree

/-!
# Merging style trees

A style tree is a list, so nothing about its type keeps a key from standing in it twice.
Merging does: it writes under the keys that are there and appends the others.  A tree
whose keys are distinct is not changed by being merged into the empty tree, and what has
been merged into a tree can be told from whether the tree is empty.
-/

namespace UtilityCss

/-! ## Laying trees over trees -/

namespace StyleTree

open Keyed (Distinct)

/-- One step of `overlay`. -/
theorem overlay_cons (key : Text) (value : StyleValue) (rest : List (Text × StyleValue))
    (base : StyleTree) :
    ∃ base', overlay ((key, value) :: rest) base = overlay rest base' ∧ base' ≠ [] ∧
      (Distinct base → Distinct base') ∧
      (base.lookup key = none → base' = base ++ [(key, value)]) := by
  rw [overlay]
  cases hkey : base.lookup key with
  | none =>
    refine ⟨_, rfl, by simp, ?_, fun _ => rfl⟩
    intro h
    rw [← Keyed.put_eq_append value hkey]
    exact h.put key value
  | some previous =>
    refine ⟨_, rfl, Keyed.put_ne_nil _ _ _, ?_, fun hnone => by simp at hnone⟩
    intro h
    exact h.put _ _

/-- Merging keeps keys distinct. -/
theorem distinct_merge {base : StyleTree} (incoming : StyleTree) (h : Distinct base) :
    Distinct (merge base incoming) := by
  induction incoming generalizing base with
  | nil => exact h
  | cons entry rest ih =>
    obtain ⟨key, value⟩ := entry
    obtain ⟨base', hstep, -, hdistinct, -⟩ := overlay_cons key value rest base
    rw [merge, hstep]
    exact ih (hdistinct h)

/-- A tree without a key of the other one is merged by appending it. -/
theorem merge_eq_append (incoming base : StyleTree) (h : Distinct (base ++ incoming)) :
    merge base incoming = base ++ incoming := by
  induction incoming generalizing base with
  | nil => rw [merge_nil, List.append_nil]
  | cons entry rest ih =>
    obtain ⟨key, value⟩ := entry
    have hkey : base.lookup key = none := by
      rw [Keyed.lookup_eq_none_iff_not_mem_keys]
      intro hmem
      have hnodup := h
      rw [Distinct, Keyed.keys, List.map_append, List.nodup_append] at hnodup
      exact hnodup.2.2 key hmem key (by simp) rfl
    obtain ⟨base', hstep, -, -, hbase⟩ := overlay_cons key value rest base
    have happend : base ++ (key, value) :: rest = base' ++ rest := by
      rw [hbase hkey, List.append_assoc]
      rfl
    rw [happend] at h ⊢
    rw [merge, hstep]
    exact ih base' h

/-- Merging a tree into the empty one changes nothing. -/
theorem nil_merge {tree : StyleTree} (h : Distinct tree) : merge [] tree = tree :=
  merge_eq_append tree [] h

/-- Nothing is lost by merging. -/
theorem merge_eq_nil_iff (incoming base : StyleTree) :
    merge base incoming = [] ↔ base = [] ∧ incoming = [] := by
  induction incoming generalizing base with
  | nil => simp
  | cons entry rest ih =>
    obtain ⟨key, value⟩ := entry
    obtain ⟨base', hstep, hne, -, -⟩ := overlay_cons key value rest base
    have hrest := ih base'
    rw [merge] at hrest ⊢
    rw [hstep, hrest]
    simp [hne]

/-- A tree inside of levels is empty only if there are no levels. -/
theorem nestIn_ne_nil {tree : StyleTree} (h : tree ≠ []) (levels : List Text) :
    nestIn levels tree ≠ [] := by
  cases levels with
  | nil => exact h
  | cons level levels =>
    show nest level (nestIn levels tree) ≠ []
    simp [nest]

end StyleTree
end UtilityCss
