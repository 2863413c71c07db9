import UtilityCss.Proofs.Style.Merge

/-!
# Style trees that agree

Merging is not associative: a declaration that replaces a nested tree makes what was nested
there forgotten, and a tree that comes after it starts anew.  It is associative for trees
that agree on where something is nested, that is if no path leads to a nested tree in the
one and to a declaration in the other.  So what is merged in one after the other may as well
be merged together first.

Both statements need that no key stands twice in one table, which merging takes care of.
-/

namespace UtilityCss

/-! ## Laying one entry over a tree -/

namespace StyleTree

open Keyed (Distinct)

/-- Lays a value over what was there, if there was something. -/
def laidOver (value : StyleValue) : Option StyleValue → StyleValue
  | some previous => overlayValue value previous
  | none => value

theorem overlay_cons_eq (key : Text) (value : StyleValue) (rest : List (Text × StyleValue))
    (base : StyleTree) : overlay ((key, value) :: rest) base =
      overlay rest (Keyed.put key (laidOver value (base.lookup key)) base) := by
  rw [overlay]
  cases hkey : base.lookup key with
  | none =>
    dsimp only
    rw [laidOver, Keyed.put_eq_append value hkey]
  | some previous => rfl

theorem overlay_eq_foldl (incoming base : StyleTree) : overlay incoming base =
    incoming.foldl (fun table entry =>
      Keyed.put entry.1 (laidOver entry.2 (table.lookup entry.1)) table) base := by
  induction incoming generalizing base with
  | nil => rfl
  | cons entry rest ih =>
    obtain ⟨key, value⟩ := entry
    rw [overlay_cons_eq, ih]
    rfl

/-- What is found in a merged tree. -/
theorem lookup_overlay {incoming : StyleTree} (h : Distinct incoming) (base : StyleTree)
    (key : Text) : (overlay incoming base).lookup key =
      match incoming.lookup key with
      | some value => some (laidOver value (base.lookup key))
      | none => base.lookup key := by
  rw [overlay_eq_foldl,
    Keyed.lookup_foldl_put h (fun previous value => laidOver value previous) base]
  cases incoming.lookup key <;> rfl

/-- The keys that are there stay where they are, and those that are new come behind them. -/
theorem keys_overlay {incoming : StyleTree} (h : Distinct incoming) (base : StyleTree) :
    Keyed.keys (overlay incoming base) =
      Keyed.keys base ++ (Keyed.keys incoming).filter (· ∉ Keyed.keys base) := by
  rw [overlay_eq_foldl, Keyed.keys_foldl_put h fun previous value => laidOver value previous]

/-- What is written in place may be written before or after a tree without the key is laid over. -/
theorem put_overlay {key : Text} {incoming base : StyleTree} (hkey : key ∉ Keyed.keys incoming)
    (hbase : base.lookup key ≠ none) (value : StyleValue) :
    Keyed.put key value (overlay incoming base) =
      overlay incoming (Keyed.put key value base) := by
  induction incoming generalizing base with
  | nil => rfl
  | cons entry rest ih =>
    obtain ⟨k, w⟩ := entry
    have hne : key ≠ k := List.ne_of_not_mem_cons hkey
    have hrest : key ∉ Keyed.keys rest := List.not_mem_of_not_mem_cons hkey
    rw [overlay_cons_eq, overlay_cons_eq, ih hrest (by rwa [Keyed.lookup_put_of_ne hne]),
      Keyed.put_comm hne hbase, Keyed.lookup_put_of_ne (Ne.symm hne)]

/-- An entry that is laid over the outcome of a merge may be laid over the incoming tree first. -/
theorem put_over_overlay {key : Text} {value : StyleValue} {incoming base : StyleTree}
    (hdistinct : Distinct incoming)
    (hassoc : ∀ v, incoming.lookup key = some v →
      laidOver value (some (laidOver v (base.lookup key))) =
        laidOver (laidOver value (some v)) (base.lookup key)) :
    Keyed.put key (laidOver value ((overlay incoming base).lookup key)) (overlay incoming base) =
      overlay (Keyed.put key (laidOver value (incoming.lookup key)) incoming) base := by
  induction incoming generalizing base with
  | nil => rw [Keyed.put, overlay_cons_eq]; rfl
  | cons entry rest ih =>
    obtain ⟨k, v⟩ := entry
    obtain ⟨hfresh, hrest⟩ := List.nodup_cons.mp hdistinct
    by_cases hk : key = k
    · subst hk
      have hnone : rest.lookup key = none := Keyed.lookup_eq_none_iff_not_mem_keys.mpr hfresh
      have hthere : (Keyed.put key (laidOver v (base.lookup key)) base).lookup key ≠ none := by
        rw [Keyed.lookup_put_self]
        exact Option.some_ne_none _
      rw [overlay_cons_eq, lookup_overlay hrest, hnone, put_overlay hfresh hthere,
        Keyed.put_put, Keyed.lookup_put_self, List.lookup_cons_self, Keyed.put, if_pos rfl,
        overlay_cons_eq, hassoc v List.lookup_cons_self]
    · have hlookup : List.lookup key ((k, v) :: rest) = rest.lookup key := by
        rw [List.lookup_cons, beq_false_of_ne hk]
      rw [hlookup] at hassoc ⊢
      rw [overlay_cons_eq, Keyed.put, if_neg (Ne.symm hk), overlay_cons_eq]
      exact ih hrest (by rwa [Keyed.lookup_put_of_ne hk])

/-! ## Well-keyed trees -/

mutual

/-- No key stands twice in one table. -/
def WellKeyed : List (Text × StyleValue) → Prop
  | [] => True
  | (key, value) :: rest => key ∉ Keyed.keys rest ∧ WellKeyedValue value ∧ WellKeyed rest

/-- The same of a value. -/
def WellKeyedValue : StyleValue → Prop
  | .tree entries => WellKeyed entries
  | .scalar _ | .list _ => True

end

theorem wellKeyed_iff {tree : StyleTree} :
    WellKeyed tree ↔ Distinct tree ∧ ∀ entry ∈ tree, WellKeyedValue entry.2 := by
  induction tree with
  | nil => simp [WellKeyed, Keyed.distinct_nil]
  | cons entry rest ih =>
    obtain ⟨key, value⟩ := entry
    rw [WellKeyed, ih, List.forall_mem_cons]
    show _ ↔ (key :: Keyed.keys rest).Nodup ∧ _
    rw [List.nodup_cons]
    constructor
    · rintro ⟨hfresh, hvalue, hrest, hvalues⟩
      exact ⟨⟨hfresh, hrest⟩, hvalue, hvalues⟩
    · rintro ⟨⟨hfresh, hrest⟩, hvalue, hvalues⟩
      exact ⟨hfresh, hvalue, hrest, hvalues⟩

namespace WellKeyed

variable {a b : StyleTree}

theorem nil : WellKeyed [] := trivial

theorem scalar (key text : Text) : WellKeyed [(key, .scalar text)] :=
  ⟨List.not_mem_nil, trivial, trivial⟩

theorem distinct (h : WellKeyed a) : Distinct a := (wellKeyed_iff.mp h).1

theorem value (h : WellKeyed a) {key : Text} {v : StyleValue} (hv : a.lookup key = some v) :
    WellKeyedValue v :=
  (wellKeyed_iff.mp h).2 (key, v) (Keyed.mem_of_lookup hv)

theorem put (h : WellKeyed a) (key : Text) {v : StyleValue} (hv : WellKeyedValue v) :
    WellKeyed (Keyed.put key v a) := by
  obtain ⟨hdistinct, hvalues⟩ := wellKeyed_iff.mp h
  refine wellKeyed_iff.mpr ⟨hdistinct.put key v, fun entry hentry => ?_⟩
  rcases Keyed.mem_put hentry with rfl | hentry
  · exact hv
  · exact hvalues entry hentry

theorem nest (h : WellKeyed a) (key : Text) : WellKeyed (nest key a) :=
  ⟨List.not_mem_nil, h, trivial⟩

theorem nestIn (h : WellKeyed a) (levels : List Text) : WellKeyed (nestIn levels a) := by
  induction levels with
  | nil => exact h
  | cons level rest ih => exact nest ih level

end WellKeyed

mutual

theorem wellKeyed_overlay : ∀ {incoming : List (Text × StyleValue)} {base : StyleTree},
    WellKeyed incoming → WellKeyed base → WellKeyed (overlay incoming base)
  | [], _, _, hbase => hbase
  | (key, value) :: rest, base, ⟨_, hvalue, hrest⟩, hbase => by
    rw [overlay_cons_eq]
    refine wellKeyed_overlay hrest (hbase.put key ?_)
    cases hkey : base.lookup key with
    | none => exact hvalue
    | some previous => exact wellKeyed_overlayValue hvalue (hbase.value hkey)

theorem wellKeyed_overlayValue : ∀ {value previous : StyleValue}, WellKeyedValue value →
    WellKeyedValue previous → WellKeyedValue (overlayValue value previous)
  | .tree _, .tree _, hvalue, hprevious => wellKeyed_overlay hvalue hprevious
  | .tree _, .scalar _, hvalue, _ => hvalue
  | .tree _, .list _, hvalue, _ => hvalue
  | .scalar _, _, _, _ => trivial
  | .list _, _, _, _ => trivial

end

theorem WellKeyed.merge {a b : StyleTree} (ha : WellKeyed a) (hb : WellKeyed b) :
    WellKeyed (merge a b) := wellKeyed_overlay hb ha

theorem wellKeyed_foldl_merge {trees : List StyleTree} : ∀ {base : StyleTree}, WellKeyed base →
    (∀ t ∈ trees, WellKeyed t) → WellKeyed (trees.foldl merge base) := by
  induction trees with
  | nil => exact fun hbase _ => hbase
  | cons tree rest ih =>
    intro base hbase htrees
    obtain ⟨htree, hrest⟩ := List.forall_mem_cons.mp htrees
    exact ih (hbase.merge htree) hrest

mutual

theorem wellKeyed_mapScalars (f : Text → Text) : ∀ {tree : List (Text × StyleValue)},
    WellKeyed tree → WellKeyed (mapScalars f tree)
  | [], _ => trivial
  | (key, value) :: rest, ⟨hfresh, hvalue, hrest⟩ =>
    ⟨by rwa [keys_mapScalars], wellKeyed_mapScalarsValue f hvalue, wellKeyed_mapScalars f hrest⟩

theorem wellKeyed_mapScalarsValue (f : Text → Text) : ∀ {value : StyleValue},
    WellKeyedValue value → WellKeyedValue (mapScalarsValue f value)
  | .tree _, h => wellKeyed_mapScalars f h
  | .scalar _, _ => trivial
  | .list _, _ => trivial

end

theorem WellKeyed.important {a : StyleTree} (h : WellKeyed a) : WellKeyed (important a) :=
  wellKeyed_mapScalars importantText h

/-! ### Merging a tree into itself -/

mutual

/-- Laying what is there over it changes nothing. -/
theorem overlay_eq_self : ∀ {incoming : List (Text × StyleValue)} {base : StyleTree},
    WellKeyed incoming → (∀ entry ∈ incoming, base.lookup entry.1 = some entry.2) →
      overlay incoming base = base
  | [], _, _, _ => rfl
  | (key, value) :: rest, base, ⟨_, hvalue, hrest⟩, hthere => by
    have hkey : base.lookup key = some value := hthere (key, value) List.mem_cons_self
    rw [overlay_cons_eq, hkey, laidOver, overlayValue_self hvalue, Keyed.put_eq_self hkey]
    exact overlay_eq_self hrest fun entry hentry => hthere entry (List.mem_cons_of_mem _ hentry)

theorem overlayValue_self : ∀ {value : StyleValue}, WellKeyedValue value →
    overlayValue value value = value
  | .tree entries, h => by
    rw [overlayValue, overlay_eq_self h fun entry hentry => ?_]
    exact Keyed.lookup_of_mem h.distinct hentry
  | .scalar _, _ => rfl
  | .list _, _ => rfl

end

theorem merge_self {tree : StyleTree} (h : WellKeyed tree) : merge tree tree = tree :=
  overlay_eq_self h fun _ hentry => Keyed.lookup_of_mem h.distinct hentry

end StyleTree

/-! ## Paths -/

namespace StyleValue

/-- Is something nested here? -/
def isTree : StyleValue → Bool
  | .tree _ => true
  | .scalar _ | .list _ => false

/-- What a path of keys leads to. -/
def at? : List Text → StyleValue → Option StyleValue
  | [], value => some value
  | key :: path, .tree entries => (entries.lookup key).bind (at? path)
  | _ :: _, .scalar _ => none
  | _ :: _, .list _ => none

/-- Only a nested tree is laid over a nested tree; anything else takes the place of what was
there. -/
theorem overlayValue_eq_left {value previous : StyleValue}
    (h : value.isTree = false ∨ previous.isTree = false) :
    StyleTree.overlayValue value previous = value := by
  cases value <;> cases previous <;> first | rfl | simp [isTree] at h

/-- No path leads to a nested tree in the one and to a declaration in the other. -/
def Agree (a b : StyleValue) : Prop :=
  ∀ path x y, a.at? path = some x → b.at? path = some y → x.isTree = y.isTree

end StyleValue

namespace StyleTree

/-- No path of keys leads to a nested tree in the one and to a declaration in the other. -/
def Agree (a b : StyleTree) : Prop := (StyleValue.tree a).Agree (.tree b)

variable {a b c : StyleTree}

theorem Agree.symm (h : Agree a b) : Agree b a :=
  fun path x y hx hy => (h path y x hy hx).symm

theorem agree_nil (a : StyleTree) : Agree a [] := by
  rintro (_ | ⟨key, path⟩) x y hx hy
  · rw [← Option.some.inj hx, ← Option.some.inj hy]
    rfl
  · exact absurd hy (by simp [StyleValue.at?])

/-- Entries under one key agree. -/
theorem Agree.value (h : Agree a b) {key : Text} {v w : StyleValue} (hv : a.lookup key = some v)
    (hw : b.lookup key = some w) : v.Agree w := by
  intro path x y hx hy
  refine h (key :: path) x y ?_ ?_
  · rw [StyleValue.at?, hv]
    exact hx
  · rw [StyleValue.at?, hw]
    exact hy

theorem agree_of_values
    (h : ∀ key v w, a.lookup key = some v → b.lookup key = some w → v.Agree w) : Agree a b := by
  rintro (_ | ⟨key, path⟩) x y hx hy
  · rw [← Option.some.inj hx, ← Option.some.inj hy]
    rfl
  · obtain ⟨v, hv, hx⟩ := Option.bind_eq_some_iff.mp hx
    obtain ⟨w, hw, hy⟩ := Option.bind_eq_some_iff.mp hy
    exact h key v w hv hw path x y hx hy

theorem Agree.nest (key : Text) (h : Agree a b) : Agree (nest key a) (nest key b) := by
  refine agree_of_values fun k v w hv hw => ?_
  have hlookup : ∀ {t : StyleTree} {x : StyleValue}, (StyleTree.nest key t).lookup k = some x →
      x = .tree t := by
    intro t x hx
    exact (Prod.mk.inj (List.mem_singleton.mp (Keyed.mem_of_lookup hx))).2
  rw [hlookup hv, hlookup hw]
  exact h

/-- Trees in which nothing is nested agree. -/
theorem agree_of_declarations (ha : ∀ entry ∈ a, entry.2.isTree = false)
    (hb : ∀ entry ∈ b, entry.2.isTree = false) : Agree a b := by
  have here : ∀ {v x : StyleValue} {path : List Text}, v.isTree = false → v.at? path = some x →
      x = v := by
    rintro v x (_ | ⟨key, path⟩) hv hx
    · exact (Option.some.inj hx).symm
    · cases v with
      | tree entries => exact absurd hv (Ne.symm Bool.false_ne_true)
      | scalar text => exact absurd hx (Option.some_ne_none x).symm
      | list items => exact absurd hx (Option.some_ne_none x).symm
  refine agree_of_values fun key v w hv hw path x y hx hy => ?_
  have hv' := ha _ (Keyed.mem_of_lookup hv)
  have hw' := hb _ (Keyed.mem_of_lookup hw)
  rw [here hv' hx, here hw' hy, hv', hw']

/-- What a path leads to in a merged tree is of the kind that it leads to in one of the two. -/
theorem exists_at?_of_overlay : ∀ (path : List Text) {incoming base : StyleTree} {x : StyleValue},
    WellKeyed incoming → (StyleValue.tree (overlay incoming base)).at? path = some x →
      ∃ y : StyleValue, ((StyleValue.tree incoming).at? path = some y ∨
        (StyleValue.tree base).at? path = some y) ∧ y.isTree = x.isTree
  | [], incoming, _, x, _, hx => ⟨_, Or.inl rfl, by rw [← Option.some.inj hx]; rfl⟩
  | key :: path, incoming, base, x, hincoming, hx => by
    obtain ⟨z, hz, hx⟩ := Option.bind_eq_some_iff.mp hx
    rw [lookup_overlay hincoming.distinct] at hz
    cases hvalue : incoming.lookup key with
    | none =>
      rw [hvalue] at hz
      have hbase : base.lookup key = some z := hz
      exact ⟨x, Or.inr (by rw [StyleValue.at?, hbase]; exact hx), rfl⟩
    | some value =>
      rw [hvalue] at hz
      obtain rfl := Option.some.inj hz
      have replaced : laidOver value (base.lookup key) = value →
          (StyleValue.tree incoming).at? (key :: path) = some x := by
        intro hover
        rw [StyleValue.at?, hvalue, ← hover]
        exact hx
      cases hprevious : base.lookup key with
      | none => exact ⟨x, Or.inl (replaced (by rw [hprevious]; rfl)), rfl⟩
      | some previous =>
        match value, previous with
        | .tree entries, .tree previous =>
          rw [hprevious] at hx
          obtain ⟨y, hy, hkind⟩ :=
            exists_at?_of_overlay path (hincoming.value hvalue) hx
          refine ⟨y, hy.imp (fun h => ?_) (fun h => ?_), hkind⟩
          · rw [StyleValue.at?, hvalue]
            exact h
          · rw [StyleValue.at?, hprevious]
            exact h
        | .scalar _, _ => exact ⟨x, Or.inl (replaced (by rw [hprevious]; rfl)), rfl⟩
        | .list _, _ => exact ⟨x, Or.inl (replaced (by rw [hprevious]; rfl)), rfl⟩
        | .tree _, .scalar _ => exact ⟨x, Or.inl (replaced (by rw [hprevious]; rfl)), rfl⟩
        | .tree _, .list _ => exact ⟨x, Or.inl (replaced (by rw [hprevious]; rfl)), rfl⟩

/-- What agrees with both agrees with the outcome of merging them. -/
theorem Agree.merge (hb : WellKeyed b) (hca : Agree c a) (hcb : Agree c b) :
    Agree c (merge a b) := by
  intro path x y hx hy
  obtain ⟨z, hz, hkind⟩ := exists_at?_of_overlay path hb hy
  rw [← hkind]
  rcases hz with hz | hz
  · exact hcb path x z hx hz
  · exact hca path x z hx hz

/-! ## Merging in one after the other -/

mutual

/-- Trees that agree may be merged first. -/
theorem overlay_overlay : ∀ {incoming : List (Text × StyleValue)} {between : StyleTree}
    (base : StyleTree), WellKeyed incoming → WellKeyed between → Agree incoming between →
      overlay incoming (overlay between base) = overlay (overlay incoming between) base
  | [], _, _, _, _, _ => rfl
  | (key, value) :: rest, between, base, ⟨hfresh, hvalue, hrest⟩, hbetween, hagree => by
    have hagreeValue : ∀ v, between.lookup key = some v → value.Agree v := fun v hv =>
      hagree.value List.lookup_cons_self hv
    have hassoc : ∀ v, between.lookup key = some v → ∀ p,
        laidOver value (some (laidOver v p)) = laidOver (laidOver value (some v)) p := by
      intro v hv p
      cases p with
      | none => rfl
      | some p =>
        exact overlayValue_overlayValue p hvalue (hbetween.value hv) (hagreeValue v hv)
    have hlaid : WellKeyed (Keyed.put key (laidOver value (between.lookup key)) between) := by
      refine hbetween.put key ?_
      cases hkey : between.lookup key with
      | none => exact hvalue
      | some v => exact wellKeyed_overlayValue hvalue (hbetween.value hkey)
    have hagreeRest : Agree rest (Keyed.put key (laidOver value (between.lookup key)) between) := by
      refine agree_of_values fun k v w hv hw => ?_
      have hne : k ≠ key := by
        rintro rfl
        exact hfresh (List.mem_map_of_mem (Keyed.mem_of_lookup hv))
      rw [Keyed.lookup_put_of_ne hne] at hw
      exact hagree.value (by rw [List.lookup_cons, beq_false_of_ne hne]; exact hv) hw
    rw [overlay_cons_eq, overlay_cons_eq,
      put_over_overlay hbetween.distinct fun v hv => hassoc v hv (base.lookup key)]
    exact overlay_overlay base hrest hlaid hagreeRest

theorem overlayValue_overlayValue : ∀ {value between : StyleValue} (previous : StyleValue),
    WellKeyedValue value → WellKeyedValue between → value.Agree between →
      overlayValue value (overlayValue between previous) =
        overlayValue (overlayValue value between) previous
  | .tree _, .tree _, .tree previous, hvalue, hbetween, hagree => by
    rw [overlayValue, overlayValue, overlayValue, overlayValue,
      overlay_overlay previous hvalue hbetween hagree]
  | .tree _, .tree _, .scalar _, _, _, _ => rfl
  | .tree _, .tree _, .list _, _, _, _ => rfl
  | .tree _, .scalar _, _, _, _, hagree =>
    absurd (hagree [] _ _ rfl rfl) (Ne.symm Bool.false_ne_true)
  | .tree _, .list _, _, _, _, hagree =>
    absurd (hagree [] _ _ rfl rfl) (Ne.symm Bool.false_ne_true)
  | .scalar _, _, _, _, _, _ => rfl
  | .list _, _, _, _, _, _ => rfl

end

/-- Trees that agree with each other may be merged together before they are merged in. -/
theorem foldl_merge {trees : List StyleTree} (hkeyed : ∀ t ∈ trees, WellKeyed t)
    (hagree : trees.Pairwise Agree) (base : StyleTree) :
    trees.foldl merge base = merge base (trees.foldl merge []) := by
  have onto : ∀ (trees : List StyleTree) (sum : StyleTree), WellKeyed sum →
      (∀ t ∈ trees, WellKeyed t) → (∀ t ∈ trees, Agree t sum) → trees.Pairwise Agree →
      trees.foldl merge (merge base sum) = merge base (trees.foldl merge sum) := by
    intro trees
    induction trees with
    | nil =>
      intro sum _ _ _ _
      rfl
    | cons t rest ih =>
      intro sum hsum hkeyed hwith hagree
      obtain ⟨ht, hrest⟩ := List.forall_mem_cons.mp hkeyed
      obtain ⟨htsum, hrestsum⟩ := List.forall_mem_cons.mp hwith
      obtain ⟨htrest, hagree⟩ := List.pairwise_cons.mp hagree
      rw [List.foldl_cons, List.foldl_cons]
      have hstep : merge (merge base sum) t = merge base (merge sum t) :=
        overlay_overlay base ht hsum htsum
      rw [hstep]
      exact ih _ (hsum.merge ht) hrest
        (fun r hr => Agree.merge ht (hrestsum r hr) (htrest r hr).symm) hagree
  exact onto trees [] WellKeyed.nil hkeyed (fun t _ => agree_nil t) hagree

end StyleTree
end UtilityCss
