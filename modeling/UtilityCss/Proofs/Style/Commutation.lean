import UtilityCss.Proofs.Style.Agreement

/-!
# Merging in another order

A tree whose keys are all there already, and are not touched by what is merged in next, may as
well be merged in after that.  So may what is done to every text of a tree.
-/

namespace UtilityCss
namespace StyleTree

open Keyed (Distinct)

variable {a b base : StyleTree}

/-- Merging keeps the keys that are there and adds those of the other tree. -/
theorem mem_keys_merge {key : Text} :
    key ∈ Keyed.keys (merge base a) ↔ key ∈ Keyed.keys base ∨ key ∈ Keyed.keys a := by
  show key ∈ Keyed.keys (overlay a base) ↔ _
  induction a generalizing base with
  | nil => simp [overlay, Keyed.keys]
  | cons entry rest ih =>
    obtain ⟨k, v⟩ := entry
    have hput : key ∈ Keyed.keys (Keyed.put k (laidOver v (base.lookup k)) base) ↔
        key ∈ Keyed.keys base ∨ key = k := by
      rw [Keyed.keys_put]
      split
      · rename_i hk
        exact ⟨Or.inl, fun h => h.elim id fun h => h ▸ hk⟩
      · rw [List.mem_append, List.mem_singleton]
    have hkeys : Keyed.keys ((k, v) :: rest) = k :: Keyed.keys rest := rfl
    rw [overlay_cons_eq, ih, hput, hkeys, List.mem_cons, or_assoc]

/-- A key of merged trees is a key of one of them. -/
theorem exists_mem_of_mem_keys_foldl_merge {trees : List StyleTree} {key : Text}
    (h : key ∈ Keyed.keys (trees.foldl merge [])) : ∃ t ∈ trees, key ∈ Keyed.keys t := by
  have honto : ∀ (trees : List StyleTree) (base : StyleTree),
      key ∈ Keyed.keys (trees.foldl merge base) →
        key ∈ Keyed.keys base ∨ ∃ t ∈ trees, key ∈ Keyed.keys t := by
    intro trees
    induction trees with
    | nil => exact fun _ => Or.inl
    | cons t rest ih =>
      intro base h
      rcases ih _ h with h | ⟨s, hs, h⟩
      · exact (mem_keys_merge.mp h).imp id fun h => ⟨t, List.mem_cons_self, h⟩
      · exact Or.inr ⟨s, List.mem_cons_of_mem _ hs, h⟩
  exact (honto trees [] h).resolve_left List.not_mem_nil

/-- A tree may be merged in entry by entry. -/
theorem foldl_merge_entries (tree base : StyleTree) :
    (tree.map fun entry => [entry]).foldl merge base = merge base tree := by
  induction tree generalizing base with
  | nil => rfl
  | cons entry rest ih =>
    rw [List.map_cons, List.foldl_cons, ih]
    show overlay rest (overlay [entry] base) = overlay (entry :: rest) base
    rw [overlay_cons_eq, overlay_cons_eq]
    rfl

/-- Two trees may be merged in in either order if they have no key in common, and all keys of the
first are there. -/
theorem merge_right_comm (hb : Distinct b) (hthere : ∀ key ∈ Keyed.keys a, key ∈ Keyed.keys base)
    (hapart : ∀ key ∈ Keyed.keys a, key ∉ Keyed.keys b) :
    merge (merge base a) b = merge (merge base b) a := by
  show overlay b (overlay a base) = overlay a (overlay b base)
  induction a generalizing base with
  | nil => rfl
  | cons entry rest ih =>
    obtain ⟨k, v⟩ := entry
    obtain ⟨hk, hrest⟩ := List.forall_mem_cons.mp hapart
    obtain ⟨hkbase, hrestbase⟩ := List.forall_mem_cons.mp hthere
    have hlookup : (overlay b base).lookup k = base.lookup k := by
      rw [lookup_overlay hb, Keyed.lookup_eq_none_iff_not_mem_keys.mpr hk]
    have hkthere : base.lookup k ≠ none := fun h =>
      Keyed.lookup_eq_none_iff_not_mem_keys.mp h hkbase
    have hput : ∀ key ∈ Keyed.keys rest,
        key ∈ Keyed.keys (Keyed.put k (laidOver v (base.lookup k)) base) := by
      intro key hkey
      rw [Keyed.keys_put, if_pos hkbase]
      exact hrestbase key hkey
    rw [overlay_cons_eq, overlay_cons_eq, hlookup, ih hput hrest, put_overlay hk hkthere]

/-- What is there already may be merged in after trees that do not touch it. -/
theorem foldl_merge_comm {trees : List StyleTree} (hdistinct : ∀ t ∈ trees, Distinct t)
    (hthere : ∀ key ∈ Keyed.keys a, key ∈ Keyed.keys base)
    (hapart : ∀ t ∈ trees, ∀ key ∈ Keyed.keys a, key ∉ Keyed.keys t) :
    trees.foldl merge (merge base a) = merge (trees.foldl merge base) a := by
  induction trees generalizing base with
  | nil => rfl
  | cons t rest ih =>
    obtain ⟨ht, hrest⟩ := List.forall_mem_cons.mp hdistinct
    obtain ⟨hat, harest⟩ := List.forall_mem_cons.mp hapart
    rw [List.foldl_cons, List.foldl_cons, merge_right_comm ht hthere hat]
    exact ih hrest (fun key hkey => mem_keys_merge.mpr (Or.inl (hthere key hkey))) harest

/-- What is merged in over a tree whose keys are not there may be laid over that tree first. -/
theorem merge_assoc_of_fresh (ha : Distinct a)
    (hthere : ∀ key ∈ Keyed.keys b, key ∈ Keyed.keys a)
    (hfresh : ∀ key ∈ Keyed.keys b, key ∉ Keyed.keys base) :
    merge (merge base a) b = merge base (merge a b) := by
  show overlay b (overlay a base) = overlay (overlay b a) base
  induction b generalizing a with
  | nil => rfl
  | cons entry rest ih =>
    obtain ⟨k, v⟩ := entry
    obtain ⟨hk, hrest⟩ := List.forall_mem_cons.mp hthere
    obtain ⟨hkbase, hrestbase⟩ := List.forall_mem_cons.mp hfresh
    have hassoc : ∀ w, a.lookup k = some w → laidOver v (some (laidOver w (base.lookup k))) =
        laidOver (laidOver v (some w)) (base.lookup k) := by
      intro w _
      rw [Keyed.lookup_eq_none_iff_not_mem_keys.mpr hkbase]
      rfl
    rw [overlay_cons_eq, overlay_cons_eq, put_over_overlay ha hassoc]
    refine ih (ha.put k _) (fun key hkey => ?_) hrestbase
    rw [Keyed.keys_put, if_pos hk]
    exact hrest key hkey

/-- Trees may be merged before or after they are put inside of levels. -/
theorem nestIn_merge (levels : List Text) (a b : StyleTree) :
    nestIn levels (merge a b) = merge (nestIn levels a) (nestIn levels b) := by
  induction levels with
  | nil => rfl
  | cons level rest ih =>
    show nest level (nestIn rest (merge a b)) =
      overlay [(level, .tree (nestIn rest b))] [(level, .tree (nestIn rest a))]
    rw [ih, nest, overlay_cons_eq, List.lookup_cons_self, Keyed.put, if_pos rfl]
    rfl

/-! ## Applying a function to every text -/

section

variable (f : Text → Text)

theorem lookup_mapScalars (key : Text) : ∀ tree : List (Text × StyleValue),
    (mapScalars f tree).lookup key = (tree.lookup key).map (mapScalarsValue f)
  | [] => rfl
  | (k, v) :: rest => by
    rw [mapScalars, List.lookup_cons, List.lookup_cons, lookup_mapScalars key rest]
    cases key == k <;> rfl

theorem mapScalars_put (key : Text) (value : StyleValue) : ∀ tree : List (Text × StyleValue),
    mapScalars f (Keyed.put key value tree) =
      Keyed.put key (mapScalarsValue f value) (mapScalars f tree)
  | [] => rfl
  | (k, v) :: rest => by
    rw [mapScalars, Keyed.put, Keyed.put]
    split
    · rfl
    · rw [mapScalars, mapScalars_put key value rest]

mutual

theorem mapScalars_overlay : ∀ (incoming : List (Text × StyleValue)) (base : StyleTree),
    mapScalars f (overlay incoming base) = overlay (mapScalars f incoming) (mapScalars f base)
  | [], _ => rfl
  | (key, value) :: rest, base => by
    have hlaid : mapScalarsValue f (laidOver value (base.lookup key)) =
        laidOver (mapScalarsValue f value) ((mapScalars f base).lookup key) := by
      rw [lookup_mapScalars]
      cases base.lookup key with
      | none => rfl
      | some previous => exact mapScalarsValue_overlayValue value previous
    rw [overlay_cons_eq, mapScalars, overlay_cons_eq, mapScalars_overlay rest, mapScalars_put,
      hlaid]

theorem mapScalarsValue_overlayValue : ∀ value previous : StyleValue,
    mapScalarsValue f (overlayValue value previous) =
      overlayValue (mapScalarsValue f value) (mapScalarsValue f previous)
  | .tree incoming, .tree base => congrArg StyleValue.tree (mapScalars_overlay incoming base)
  | .tree _, .scalar _ => rfl
  | .tree _, .list _ => rfl
  | .scalar _, previous => by cases previous <;> rfl
  | .list _, previous => by cases previous <;> rfl

end

end

/-- What is merged becomes important as a whole. -/
theorem important_merge (a b : StyleTree) :
    important (merge a b) = merge (important a) (important b) :=
  mapScalars_overlay importantText b a

end StyleTree
end UtilityCss
