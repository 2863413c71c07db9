import UtilityCss.Proofs.Style.Agreement
import UtilityCss.Style.Key

/-!
# Names in camel case

Writing the names of properties in camel case may make one name of two, and then the value that
comes last in the tree counts, which is not the one that was merged in last.  Where the keys of
trees are spelled apart nothing of the kind happens, and merging the trees and writing their names
in camel case commute.
-/

namespace UtilityCss

open StyleTree (camelEntry camelEntries camelize)

/-! ## Spelling -/

namespace StyleValue

/-- The key of an entry when the names of properties are in camel case. -/
def spelled (key : Text) (value : StyleValue) : Text := (camelEntry key value).1

/-- A value in a tree in which the names of properties are in camel case. -/
def camelized : StyleValue → StyleValue
  | .tree entries => .tree (camelize entries)
  | .scalar text => .scalar text
  | .list items => .list items

/-- Only what is no key of a nested tree, and the name of a property, is written in camel case. -/
theorem spelled_eq (key : Text) (value : StyleValue) : spelled key value =
    if value.isTree || StyleTree.isSelector key || Text.startsWith key "--" then key
    else StyleTree.camelCase key := by
  unfold spelled
  cases value with
  | tree entries => rfl
  | scalar text =>
    show (if _ then _ else _ : Text × StyleValue).1 = _
    rw [isTree, Bool.false_or]
    split <;> rfl
  | list items =>
    show (if _ then _ else _ : Text × StyleValue).1 = _
    rw [isTree, Bool.false_or]
    split <;> rfl

theorem camelEntry_eq (key : Text) (value : StyleValue) :
    camelEntry key value = (spelled key value, camelized value) := by
  unfold spelled
  cases value with
  | tree entries => rfl
  | scalar text =>
    unfold camelEntry
    split <;> rfl
  | list items =>
    unfold camelEntry
    split <;> rfl

/-- Only whether something is nested under a key matters to its spelling. -/
theorem spelled_congr (key : Text) {v w : StyleValue} (h : v.isTree = w.isTree) :
    spelled key v = spelled key w := by
  rw [spelled_eq, spelled_eq, h]

/-- Keys at the same place are spelled alike only if they are the same, and then they are. -/
def SpelledApart (a b : StyleValue) : Prop :=
  ∀ path k l x y, a.at? (path ++ [k]) = some x → b.at? (path ++ [l]) = some y →
    (spelled k x = spelled l y ↔ k = l)

/-- Laying over decides whether something is nested. -/
theorem isTree_laidOver (value : StyleValue) (previous : Option StyleValue) :
    (StyleTree.laidOver value previous).isTree = value.isTree := by
  rcases previous with _ | previous
  · rfl
  · cases value <;> cases previous <;> rfl

end StyleValue

namespace StyleTree

open StyleValue (spelled camelized)

theorem camelEntries_cons (key : Text) (value : StyleValue) (rest : List (Text × StyleValue)) :
    camelEntries ((key, value) :: rest) =
      (spelled key value, camelized value) :: camelEntries rest := by
  rw [camelEntries, StyleValue.camelEntry_eq]

theorem camelEntries_eq_map (entries : List (Text × StyleValue)) :
    camelEntries entries = entries.map fun e => (spelled e.1 e.2, camelized e.2) := by
  induction entries with
  | nil => rfl
  | cons e rest ih => rw [camelEntries_cons, ih, List.map_cons]

/-- Keys at the same place are spelled alike only if they are the same, and then they are. -/
def SpelledApart (a b : StyleTree) : Prop := (StyleValue.tree a).SpelledApart (.tree b)

variable {a b c : StyleTree}

theorem SpelledApart.symm (h : SpelledApart a b) : SpelledApart b a :=
  fun path k l x y hx hy => (eq_comm.trans (h path l k y x hy hx)).trans eq_comm

theorem spelledApart_nil (a : StyleTree) : SpelledApart a [] := by
  rintro (_ | ⟨key, path⟩) k l x y - hy <;> exact absurd hy (by simp [StyleValue.at?])

/-- Entries are spelled apart. -/
theorem SpelledApart.entry (h : SpelledApart a b) {k l : Text} {x y : StyleValue}
    (hx : a.lookup k = some x) (hy : b.lookup l = some y) : spelled k x = spelled l y ↔ k = l := by
  refine h [] k l x y ?_ ?_
  · show (a.lookup k).bind _ = _
    rw [hx]
    rfl
  · show (b.lookup l).bind _ = _
    rw [hy]
    rfl

/-- What is nested under one key is spelled apart. -/
theorem SpelledApart.value (h : SpelledApart a b) {key : Text} {v w : StyleValue}
    (hv : a.lookup key = some v) (hw : b.lookup key = some w) : v.SpelledApart w := by
  intro path k l x y hx hy
  refine h (key :: path) k l x y ?_ ?_
  · rw [List.cons_append, StyleValue.at?, hv]
    exact hx
  · rw [List.cons_append, StyleValue.at?, hw]
    exact hy

/-- A tree has fewer entries. -/
theorem SpelledApart.mono (h : SpelledApart c a)
    (hentries : ∀ key v, b.lookup key = some v → a.lookup key = some v) : SpelledApart c b := by
  have hat : ∀ path k y, (StyleValue.tree b).at? (path ++ [k]) = some y →
      (StyleValue.tree a).at? (path ++ [k]) = some y := by
    rintro (_ | ⟨key, path⟩) k y hy <;>
    · obtain ⟨v, hv, hy⟩ := Option.bind_eq_some_iff.mp hy
      exact Option.bind_eq_some_iff.mpr ⟨v, hentries _ v hv, hy⟩
  exact fun path k l x y hx hy => h path k l x y hx (hat path l y hy)

/-- What is spelled apart from two trees is spelled apart from the outcome of merging them. -/
theorem SpelledApart.merge (hb : WellKeyed b) (hca : SpelledApart c a) (hcb : SpelledApart c b) :
    SpelledApart c (merge a b) := by
  intro path k l x y hx hy
  obtain ⟨z, hz, hkind⟩ := exists_at?_of_overlay (path ++ [l]) hb hy
  rw [← StyleValue.spelled_congr l hkind]
  rcases hz with hz | hz
  · exact hcb path k l x z hx hz
  · exact hca path k l x z hx hz

/-! ## Trees in camel case -/

mutual

/-- Every key of the tree, wherever it is nested, is spelled as it is. -/
def InCamelCase : List (Text × StyleValue) → Prop
  | [] => True
  | (key, value) :: rest => spelled key value = key ∧ InCamelCaseValue value ∧ InCamelCase rest

def InCamelCaseValue : StyleValue → Prop
  | .tree entries => InCamelCase entries
  | _ => True

end

theorem InCamelCase.of_mem {tree : StyleTree} (h : InCamelCase tree) {key : Text}
    {value : StyleValue} (hmem : (key, value) ∈ tree) :
    spelled key value = key ∧ InCamelCaseValue value := by
  induction tree with
  | nil => exact absurd hmem List.not_mem_nil
  | cons entry rest ih =>
    obtain ⟨hkey, hvalue, hrest⟩ := h
    rcases List.mem_cons.mp hmem with rfl | hmem
    · exact ⟨hkey, hvalue⟩
    · exact ih hrest hmem

theorem inCamelCase_iff {tree : StyleTree} : InCamelCase tree ↔
    ∀ e ∈ tree, spelled e.1 e.2 = e.1 ∧ InCamelCaseValue e.2 := by
  refine ⟨fun h e he => h.of_mem he, fun h => ?_⟩
  induction tree with
  | nil => trivial
  | cons e rest ih =>
    obtain ⟨⟨hkey, hvalue⟩, hrest⟩ := List.forall_mem_cons.mp h
    exact ⟨hkey, hvalue, ih hrest⟩

theorem InCamelCase.spelled_eq {path : List Text} {k : Text} {x : StyleValue} :
    ∀ {tree : StyleTree}, InCamelCase tree →
      (StyleValue.tree tree).at? (path ++ [k]) = some x → spelled k x = k := by
  induction path with
  | nil =>
    intro tree h hx
    obtain ⟨v, hv, hx⟩ := Option.bind_eq_some_iff.mp hx
    rw [← Option.some.inj hx]
    exact (h.of_mem (Keyed.mem_of_lookup hv)).1
  | cons key path ih =>
    intro tree h hx
    obtain ⟨v, hv, hx⟩ := Option.bind_eq_some_iff.mp hx
    have hvalue := (h.of_mem (Keyed.mem_of_lookup hv)).2
    cases v with
    | tree entries => exact ih hvalue hx
    | scalar text => cases path <;> exact absurd hx (Option.some_ne_none x).symm
    | list items => cases path <;> exact absurd hx (Option.some_ne_none x).symm

/-- Trees in camel case are spelled apart. -/
theorem InCamelCase.spelledApart (ha : InCamelCase a) (hb : InCamelCase b) : SpelledApart a b := by
  intro path k l x y hx hy
  rw [ha.spelled_eq hx, hb.spelled_eq hy]

/-! ## Trees that are spelled apart -/

section

variable {key : Text} {value : StyleValue} {tree : List (Text × StyleValue)}

theorem lookup_camelEntries
    (h : ∀ e ∈ tree, spelled key value = spelled e.1 e.2 ↔ key = e.1) :
    (camelEntries tree).lookup (spelled key value) = (tree.lookup key).map camelized := by
  induction tree with
  | nil => rfl
  | cons entry rest ih =>
    obtain ⟨k, v⟩ := entry
    obtain ⟨hk, hrest⟩ := List.forall_mem_cons.mp h
    rw [camelEntries_cons, List.lookup_cons, List.lookup_cons, ih hrest]
    by_cases hkey : key = k
    · rw [beq_iff_eq.mpr hkey, beq_iff_eq.mpr (hk.mpr hkey)]
      rfl
    · rw [beq_false_of_ne hkey, beq_false_of_ne (mt hk.mp hkey)]

theorem camelEntries_put (h : ∀ e ∈ tree, spelled key value = spelled e.1 e.2 ↔ key = e.1) :
    camelEntries (Keyed.put key value tree) =
      Keyed.put (spelled key value) (camelized value) (camelEntries tree) := by
  induction tree with
  | nil => exact camelEntries_cons key value []
  | cons entry rest ih =>
    obtain ⟨k, v⟩ := entry
    obtain ⟨hk, hrest⟩ := List.forall_mem_cons.mp h
    rw [camelEntries_cons, Keyed.put, Keyed.put]
    by_cases hkey : key = k
    · subst hkey
      rw [if_pos rfl, if_pos (hk.mpr rfl).symm, camelEntries_cons, hk.mpr rfl]
    · rw [if_neg (Ne.symm hkey), if_neg (Ne.symm (mt hk.mp hkey)), camelEntries_cons, ih hrest]

end

/-- A key of the one tree is spelled like no key of the other one but itself. -/
theorem SpelledApart.mem (h : SpelledApart a b) (hb : WellKeyed b) {key : Text} {value : StyleValue}
    (hvalue : a.lookup key = some value) :
    ∀ e ∈ b, spelled key value = spelled e.1 e.2 ↔ key = e.1 :=
  fun _ he => h.entry hvalue (Keyed.lookup_of_mem hb.distinct he)

/-- In camel case the keys of a tree that is spelled apart from itself are distinct. -/
theorem camelize_of_spelledApart (ha : WellKeyed a) (h : SpelledApart a a) :
    camelize a = camelEntries a := by
  have hkeys : Keyed.keys (camelEntries a) = a.map fun e => spelled e.1 e.2 := by
    rw [camelEntries_eq_map, Keyed.keys, List.map_map]
    rfl
  refine Keyed.ofList_eq_self ?_
  rw [Keyed.Distinct, hkeys]
  refine List.pairwise_map.mpr ((List.pairwise_map.mp ha.distinct).imp_of_mem ?_)
  intro e f he hf hne hspelled
  exact hne ((h.mem ha (Keyed.lookup_of_mem ha.distinct he) f hf).mp hspelled)

/-! ## Merging -/

mutual

theorem camelEntries_overlay : ∀ {incoming : List (Text × StyleValue)} {base : StyleTree},
    WellKeyed incoming → WellKeyed base → SpelledApart incoming incoming →
      SpelledApart incoming base → SpelledApart base base →
        camelEntries (overlay incoming base) =
          overlay (camelEntries incoming) (camelEntries base)
  | [], _, _, _, _, _, _ => rfl
  | (key, value) :: rest, base, hincoming, hbase, hself, hboth, hbelow => by
    obtain ⟨hfresh, hvalue, hrest⟩ := hincoming
    have hkey : List.lookup key ((key, value) :: rest) = some value := List.lookup_cons_self
    -- the tree with the first entry laid over
    have hsingle : WellKeyed [(key, value)] := ⟨List.not_mem_nil, hvalue, trivial⟩
    have hentry : ∀ k v, List.lookup k [(key, value)] = some v →
        List.lookup k ((key, value) :: rest) = some v := by
      intro k v hv
      rw [List.lookup_cons] at hv ⊢
      split at hv <;> simp_all
    have hrestEntry : ∀ k v, rest.lookup k = some v →
        List.lookup k ((key, value) :: rest) = some v := by
      intro k v hv
      have hne : k ≠ key := fun he => hfresh (he ▸ Keyed.mem_keys_of_lookup hv)
      rw [List.lookup_cons, beq_false_of_ne hne]
      exact hv
    have hput : Keyed.put key (laidOver value (base.lookup key)) base = merge base [(key, value)] :=
      (overlay_cons_eq key value [] base).symm
    have hlaid : camelized (laidOver value (base.lookup key)) =
        laidOver (camelized value) ((camelEntries base).lookup (spelled key value)) := by
      rw [lookup_camelEntries (hboth.mem hbase hkey)]
      cases hprevious : base.lookup key with
      | none => rfl
      | some previous =>
        exact camelized_overlayValue hvalue (hbase.value hprevious) (hself.value hkey hkey)
          (hboth.value hkey hprevious) (hbelow.value hprevious hprevious)
    have hspelled : spelled key (laidOver value (base.lookup key)) = spelled key value :=
      StyleValue.spelled_congr key (StyleValue.isTree_laidOver value _)
    have hstep : camelEntries (Keyed.put key (laidOver value (base.lookup key)) base) =
        Keyed.put (spelled key value)
          (laidOver (camelized value) ((camelEntries base).lookup (spelled key value)))
          (camelEntries base) := by
      rw [camelEntries_put, hspelled, hlaid]
      rw [hspelled]
      exact hboth.mem hbase hkey
    rw [overlay_cons_eq, camelEntries_cons, overlay_cons_eq, ← hstep, hput]
    have hrestSelf := (hself.mono hrestEntry).symm.mono hrestEntry
    have hrestBase : SpelledApart rest (merge base [(key, value)]) :=
      .merge hsingle (hboth.symm.mono hrestEntry).symm
        ((hself.mono hentry).symm.mono hrestEntry).symm
    have hbase' : SpelledApart base (merge base [(key, value)]) :=
      .merge hsingle hbelow (hboth.symm.mono hentry)
    have hsingle' : SpelledApart [(key, value)] (merge base [(key, value)]) :=
      .merge hsingle (hboth.symm.mono hentry).symm ((hself.mono hentry).symm.mono hentry)
    exact camelEntries_overlay hrest (hbase.merge hsingle) hrestSelf hrestBase
      (.merge hsingle hbase'.symm hsingle'.symm)

theorem camelized_overlayValue : ∀ {value previous : StyleValue}, WellKeyedValue value →
    WellKeyedValue previous → value.SpelledApart value → value.SpelledApart previous →
      previous.SpelledApart previous →
        camelized (overlayValue value previous) = overlayValue (camelized value) (camelized previous)
  | .tree incoming, .tree base, hvalue, hprevious, hself, hboth, hbelow => by
    have hmerged : SpelledApart (overlay incoming base) (overlay incoming base) :=
      .merge hvalue (SpelledApart.merge hvalue hbelow (.symm hboth)).symm
        (SpelledApart.merge hvalue hboth hself).symm
    show StyleValue.tree (camelize (overlay incoming base)) =
      .tree (overlay (camelize incoming) (camelize base))
    rw [camelize_of_spelledApart (wellKeyed_overlay hvalue hprevious) hmerged,
      camelize_of_spelledApart hvalue hself, camelize_of_spelledApart hprevious hbelow,
      camelEntries_overlay hvalue hprevious hself hboth hbelow]
  | .tree _, .scalar _, _, _, _, _, _ => rfl
  | .tree _, .list _, _, _, _, _, _ => rfl
  | .scalar _, previous, _, _, _, _, _ => by cases previous <;> rfl
  | .list _, previous, _, _, _, _, _ => by cases previous <;> rfl

end

/-- Trees that are spelled apart may be merged before or after their names are written in camel
case. -/
theorem camelize_merge (ha : WellKeyed a) (hb : WellKeyed b) (haa : SpelledApart a a)
    (hba : SpelledApart b a) (hbb : SpelledApart b b) :
    camelize (merge a b) = merge (camelize a) (camelize b) := by
  have hmerged : SpelledApart (merge a b) (merge a b) :=
    .merge hb (SpelledApart.merge hb haa hba.symm).symm (SpelledApart.merge hb hba hbb).symm
  rw [camelize_of_spelledApart (ha.merge hb) hmerged, camelize_of_spelledApart ha haa,
    camelize_of_spelledApart hb hbb]
  exact camelEntries_overlay hb ha hbb hba haa

theorem camelize_foldl_merge {trees : List StyleTree} (hkeyed : ∀ t ∈ trees, WellKeyed t)
    (hapart : ∀ s ∈ trees, ∀ t ∈ trees, SpelledApart s t) :
    camelize (trees.foldl merge []) = (trees.map camelize).foldl merge [] := by
  have onto : ∀ (trees : List StyleTree) (base : StyleTree), WellKeyed base →
      (∀ t ∈ trees, WellKeyed t) → SpelledApart base base →
      (∀ t ∈ trees, SpelledApart t base) → (∀ s ∈ trees, ∀ t ∈ trees, SpelledApart s t) →
      camelize (trees.foldl merge base) = (trees.map camelize).foldl merge (camelize base) := by
    intro trees
    induction trees with
    | nil => exact fun _ _ _ _ _ _ => rfl
    | cons t rest ih =>
      intro base hbase hkeyed hself hwith hapart
      obtain ⟨ht, hrest⟩ := List.forall_mem_cons.mp hkeyed
      obtain ⟨htbase, hrestbase⟩ := List.forall_mem_cons.mp hwith
      obtain ⟨htall, hall⟩ := List.forall_mem_cons.mp hapart
      obtain ⟨htt, htrest⟩ := List.forall_mem_cons.mp htall
      rw [List.foldl_cons, List.map_cons, List.foldl_cons, ← camelize_merge hbase ht hself htbase htt]
      refine ih (merge base t) (hbase.merge ht) hrest ?_ ?_ ?_
      · exact .merge ht (SpelledApart.merge ht hself htbase.symm).symm
          (SpelledApart.merge ht htbase htt).symm
      · exact fun r hr => .merge ht (hrestbase r hr) (htrest r hr).symm
      · exact fun r hr s hs => hall r hr s (List.mem_cons_of_mem _ hs)
  exact onto trees [] WellKeyed.nil hkeyed (spelledApart_nil []) (fun t _ => spelledApart_nil t)
    hapart

end StyleTree
end UtilityCss
