import Mathlib.Data.List.Forall2
import UtilityCss.Proofs.Evaluation.Wrapper
import UtilityCss.Proofs.Style.Level
import UtilityCss.Proofs.Text

/-!
# Groups of wrappers

The members of a group are either joined into one level or put around each other, and which of the
two is decided by wrapping a marker.  A wrapper takes a tree along several routes, one for each way
of choosing a template of every layer; what it makes of the tree is the tree behind all routes,
merged.  So one selector is all that a wrapper adds just if its routes are all the same and consist
of this selector.

The marker shows the routes if its own key is none of the levels: then the key stands in the
outcome exactly where a route ends.  A level with that key may hide a route: where a variant adds
nothing on one route and that level on another one, the second covers the first, and what is left
looks like one level.
-/

namespace UtilityCss

open StyleTree (nest nestIn keysAt WellKeyed DeclaresOnly)

/-- What is joined begins as the first text does. -/
theorem StyleTree.isAtRule_joinWith {s : Text} (hs : isAtRule s = false) (rest : List Text) :
    isAtRule (Text.joinWith ", " (s :: rest)) = false := by
  cases rest with
  | nil => exact hs
  | cons t rest =>
    cases s with
    | nil => rfl
    | cons c u =>
      by_cases hc : c = '@'
      · rw [hc] at hs
        exact absurd hs (by simp [isAtRule, Text.startsWith, Text.dropLead?])
      · simp [isAtRule, Text.startsWith, Text.dropLead?, Text.joinWith, Ne.symm hc]

/-! ## Layers -/

namespace Wrapping

variable {layer : Wrapping} {tree : StyleTree} {key : Text}

/-- Templates that are all the same count once. -/
theorem wrap_of_forall_eq {levels : List Text} (hne : layer.templates ≠ [])
    (hall : ∀ template ∈ layer.templates, template = levels) (htree : WellKeyed tree) :
    layer.wrap tree = nestIn levels tree := by
  have hkeyed : WellKeyed (nestIn levels tree) := htree.nestIn levels
  have hself : ∀ n, (List.replicate n (nestIn levels tree)).foldl StyleTree.merge
      (nestIn levels tree) = nestIn levels tree := by
    intro n
    induction n with
    | zero => rfl
    | succ n ih => rw [List.replicate_succ, List.foldl_cons, StyleTree.merge_self hkeyed, ih]
  obtain ⟨n, hn⟩ := Nat.exists_eq_succ_of_ne_zero (mt List.length_eq_zero_iff.mp hne)
  rw [wrap_eq_foldl, List.eq_replicate_of_mem hall, List.map_replicate, hn, List.replicate_succ,
    List.foldl_cons, StyleTree.nil_merge hkeyed.distinct, hself]

section

variable (hkey : ∀ levels ∈ layer.templates, key ∉ levels) (htree : WellKeyed tree)
  (honly : DeclaresOnly key tree)

include htree honly

theorem declaresOnly_wrap : DeclaresOnly key (layer.wrap tree) := by
  rw [wrap_eq_foldl]
  refine StyleTree.declaresOnly_foldl_merge ?_ ?_ (StyleTree.declaresOnly_nil key)
  · intro t ht
    obtain ⟨levels, -, rfl⟩ := List.mem_map.mp ht
    exact htree.nestIn levels
  · intro t ht
    obtain ⟨levels, -, rfl⟩ := List.mem_map.mp ht
    exact honly.nestIn levels

include hkey

/-- Where a key stands that is no level: behind the levels of a template. -/
theorem mem_keysAt_wrap {path : List Text} (hpath : key ∉ path) :
    key ∈ keysAt path (layer.wrap tree) ↔
      ∃ levels ∈ layer.templates, ∃ below, path = levels ++ below ∧ key ∈ keysAt below tree := by
  rw [wrap_eq_foldl, StyleTree.mem_keysAt_foldl_merge ?_ ?_ hpath]
  · have hnil : key ∉ keysAt path [] := by cases path <;> exact List.not_mem_nil
    rw [or_iff_right hnil]
    constructor
    · rintro ⟨t, ht, h⟩
      obtain ⟨levels, hlevels, rfl⟩ := List.mem_map.mp ht
      exact ⟨levels, hlevels, (StyleTree.mem_keysAt_nestIn (hkey levels hlevels)).mp h⟩
    · rintro ⟨levels, hlevels, h⟩
      exact ⟨_, List.mem_map_of_mem hlevels,
        (StyleTree.mem_keysAt_nestIn (hkey levels hlevels)).mpr h⟩
  · intro t ht
    obtain ⟨levels, -, rfl⟩ := List.mem_map.mp ht
    exact htree.nestIn levels
  · intro t ht
    obtain ⟨levels, -, rfl⟩ := List.mem_map.mp ht
    exact honly.nestIn levels

end

end Wrapping

namespace Wrapper

/-! ## Routes -/

/-- The tree inside of all layers, with nothing changed on the way. -/
def enclose (w : Wrapper) (tree : StyleTree) : StyleTree := w.layers.foldr Wrapping.wrap tree

/-- The levels on the ways through these layers: on each way one template of every layer. -/
def routesThrough : List Wrapping → List (List Text)
  | [] => [[]]
  | layer :: rest =>
    layer.templates.flatMap fun levels => (routesThrough rest).map fun route => levels ++ route

/-- The levels on the ways that a wrapper takes a tree. -/
def routes (w : Wrapper) : List (List Text) := routesThrough w.layers

/-- No level of the wrapper has the key of the marker. -/
def Unmarked (w : Wrapper) : Prop :=
  ∀ layer ∈ w.layers, ∀ levels ∈ layer.templates, ("--marker" : Text) ∉ levels

instance : DecidablePred Unmarked := fun w =>
  inferInstanceAs (Decidable (∀ layer ∈ w.layers, ∀ levels ∈ layer.templates, _ ∉ levels))

/-- All that the wrapper adds to any tree is one level, and the key of this level is the selector,
which does not begin an at-rule. -/
structure Selects (w : Wrapper) (selector : Text) : Prop where
  enclose_eq : ∀ tree, WellKeyed tree → tree ≠ [] → w.enclose tree = nest selector tree
  not_atRule : StyleTree.isAtRule selector = false

variable {w : Wrapper} {tree : StyleTree} {selector key : Text}

theorem mem_routesThrough {layer : Wrapping} {rest : List Wrapping} {path : List Text} :
    path ∈ routesThrough (layer :: rest) ↔
      ∃ levels ∈ layer.templates, ∃ route ∈ routesThrough rest, levels ++ route = path := by
  simp only [routesThrough, List.mem_flatMap, List.mem_map]

/-- A wrapper whose routes are all the same puts their levels around a tree. -/
theorem foldr_wrap_of_routes (htree : WellKeyed tree) :
    ∀ {layers : List Wrapping} {route : List Text}, routesThrough layers ≠ [] →
      (∀ r ∈ routesThrough layers, r = route) →
      layers.foldr Wrapping.wrap tree = nestIn route tree
  | [], route, _, hall => by
    rw [← hall [] List.mem_cons_self]
    rfl
  | layer :: rest, route, hne, hall => by
    obtain ⟨r, hr⟩ := List.exists_mem_of_ne_nil _ hne
    obtain ⟨levels, hlevels, inner, hinner, -⟩ := mem_routesThrough.mp hr
    have hroute : ∀ l ∈ layer.templates, ∀ i ∈ routesThrough rest, l ++ i = route :=
      fun l hl i hi => hall _ (mem_routesThrough.mpr ⟨l, hl, i, hi, rfl⟩)
    have hrest : rest.foldr Wrapping.wrap tree = nestIn inner tree :=
      foldr_wrap_of_routes htree (List.ne_nil_of_mem hinner) fun i hi =>
        List.append_cancel_left ((hroute levels hlevels i hi).trans
          (hroute levels hlevels inner hinner).symm)
    have hwrap : layer.wrap (nestIn inner tree) = nestIn levels (nestIn inner tree) :=
      Wrapping.wrap_of_forall_eq (List.ne_nil_of_mem hlevels) (fun l hl =>
        List.append_cancel_right ((hroute l hl inner hinner).trans
          (hroute levels hlevels inner hinner).symm)) (htree.nestIn inner)
    rw [List.foldr_cons, hrest, hwrap, ← hroute levels hlevels inner hinner]
    exact (List.foldr_append).symm

/-- Where a key stands that is no level: behind a route. -/
theorem mem_keysAt_foldr_wrap (htree : WellKeyed tree) (honly : DeclaresOnly key tree) :
    ∀ {layers : List Wrapping}, (∀ layer ∈ layers, ∀ levels ∈ layer.templates, key ∉ levels) →
      WellKeyed (layers.foldr Wrapping.wrap tree) ∧
      DeclaresOnly key (layers.foldr Wrapping.wrap tree) ∧
      ∀ path, key ∉ path → (key ∈ keysAt path (layers.foldr Wrapping.wrap tree) ↔
        ∃ route ∈ routesThrough layers, ∃ below, path = route ++ below ∧ key ∈ keysAt below tree)
  | [], _ => by
    refine ⟨htree, honly, fun path _ => ?_⟩
    simp [routesThrough]
  | layer :: rest, hkey => by
    obtain ⟨hlayer, hrest⟩ := List.forall_mem_cons.mp hkey
    obtain ⟨hkeyed, hdeclares, hmem⟩ := mem_keysAt_foldr_wrap htree honly hrest
    refine ⟨layer.wellKeyed_wrap hkeyed, Wrapping.declaresOnly_wrap hkeyed hdeclares, ?_⟩
    intro path hpath
    rw [List.foldr_cons, Wrapping.mem_keysAt_wrap hlayer hkeyed hdeclares hpath]
    constructor
    · rintro ⟨levels, hlevels, below, rfl, h⟩
      have hbelow : key ∉ below := fun h => hpath (List.mem_append_right _ h)
      obtain ⟨route, hroute, deeper, rfl, hdeep⟩ := (hmem below hbelow).mp h
      exact ⟨_, mem_routesThrough.mpr ⟨levels, hlevels, route, hroute, rfl⟩, deeper,
        (List.append_assoc ..).symm, hdeep⟩
    · rintro ⟨r, hr, below, rfl, h⟩
      obtain ⟨levels, hlevels, route, hroute, rfl⟩ := mem_routesThrough.mp hr
      have hbelow : key ∉ route ++ below := by
        rw [List.append_assoc] at hpath
        exact fun h => hpath (List.mem_append_right _ h)
      exact ⟨levels, hlevels, route ++ below, List.append_assoc ..,
        (hmem _ hbelow).mpr ⟨route, hroute, below, rfl, h⟩⟩

/-! ## What the marker shows -/

theorem wellKeyed_marker : WellKeyed marker := WellKeyed.scalar _ _

theorem declaresOnly_marker : DeclaresOnly "--marker" marker := by
  intro path hpath
  cases path with
  | nil => rfl
  | cons k path =>
    have hk : k ≠ "--marker" := fun h => hpath (h ▸ List.mem_cons_self)
    have hlookup : marker.lookup k = none := by
      rw [marker, List.lookup_cons, beq_false_of_ne hk]
      rfl
    rw [StyleTree.declares, hlookup]

theorem mem_keysAt_marker {path : List Text} :
    ("--marker" : Text) ∈ keysAt path marker ↔ path = [] := by
  cases path with
  | nil => exact iff_of_true List.mem_cons_self rfl
  | cons k path =>
    refine iff_of_false (fun h => ?_) (List.cons_ne_nil _ _)
    rw [StyleTree.keysAt, StyleTree.nested?, marker, List.lookup_cons] at h
    cases hk : k == ("--marker" : Text) <;> rw [hk] at h <;> exact List.not_mem_nil h

/-- The key of the marker stands where the routes end. -/
theorem Unmarked.mem_routes_iff (hw : w.Unmarked) {path : List Text}
    (hpath : ("--marker" : Text) ∉ path) :
    path ∈ w.routes ↔ ("--marker" : Text) ∈ keysAt path (w.enclose marker) := by
  obtain ⟨-, -, hmem⟩ := mem_keysAt_foldr_wrap wellKeyed_marker declaresOnly_marker hw
  rw [enclose, hmem path hpath]
  constructor
  · exact fun h => ⟨path, h, [], (List.append_nil _).symm, mem_keysAt_marker.mpr rfl⟩
  · rintro ⟨route, hroute, below, rfl, h⟩
    rwa [mem_keysAt_marker.mp h, List.append_nil]

theorem Unmarked.notMem_route (hw : w.Unmarked) {route : List Text} (h : route ∈ w.routes) :
    ("--marker" : Text) ∉ route := by
  have hlayers : ∀ (layers : List Wrapping), (∀ layer ∈ layers, ∀ levels ∈ layer.templates,
      ("--marker" : Text) ∉ levels) → ∀ route ∈ routesThrough layers,
      ("--marker" : Text) ∉ route := by
    intro layers
    induction layers with
    | nil =>
      intro _ route hroute
      rw [List.mem_singleton.mp hroute]
      exact List.not_mem_nil
    | cons layer rest ih =>
      intro hkey route hroute
      obtain ⟨hlayer, hrest⟩ := List.forall_mem_cons.mp hkey
      obtain ⟨levels, hlevels, inner, hinner, rfl⟩ := mem_routesThrough.mp hroute
      exact List.not_mem_append (hlayer levels hlevels) (ih hrest inner hinner)
  exact hlayers w.layers hw route h

/-- A marker in one level has come there by this level alone. -/
theorem Unmarked.routes_of_enclose_marker (hw : w.Unmarked)
    (hmarker : w.enclose marker = nest selector marker) :
    w.routes ≠ [] ∧ ∀ route ∈ w.routes, route = [selector] := by
  have hroute : ∀ route ∈ w.routes, ("--marker" : Text) ∈ keysAt route (nest selector marker) := by
    intro route h
    rw [← hmarker]
    exact (hw.mem_routes_iff (hw.notMem_route h)).mp h
  have hlevel : ∀ k path, k :: path ∈ w.routes → k :: path = [selector] := by
    intro k path h
    have hkeys := hroute _ h
    rw [StyleTree.keysAt_nest] at hkeys
    split at hkeys
    · rename_i hk
      rw [hk, mem_keysAt_marker.mp hkeys]
    · exact absurd hkeys List.not_mem_nil
  -- a level with the key of the marker would have to come from nowhere
  have hselector : ("--marker" : Text) ≠ selector := by
    rintro rfl
    have hnil : [] ∈ w.routes := by
      rw [hw.mem_routes_iff List.not_mem_nil, hmarker]
      exact List.mem_cons_self
    have hall : ∀ route ∈ w.routes, route = [] := by
      intro route h
      cases route with
      | nil => rfl
      | cons k path =>
        exact absurd (hlevel k path h ▸ List.mem_cons_self) (hw.notMem_route h)
    have henclose : w.enclose marker = marker :=
      foldr_wrap_of_routes wellKeyed_marker (List.ne_nil_of_mem hnil) hall
    rw [henclose] at hmarker
    exact absurd hmarker (by decide)
  have hone : [selector] ∈ w.routes := by
    have hpath : ("--marker" : Text) ∉ [selector] := fun h => hselector (List.mem_singleton.mp h)
    rw [hw.mem_routes_iff hpath, hmarker, StyleTree.keysAt_nest, if_pos rfl]
    exact List.mem_cons_self
  refine ⟨List.ne_nil_of_mem hone, fun route h => ?_⟩
  cases route with
  | nil => exact absurd (List.mem_singleton.mp (hroute [] h)) hselector
  | cons k path => exact hlevel k path h

/-- What the marker is asked for: does it lie in one level of its own? -/
theorem plainSelector?_eq_some_iff : w.plainSelector? = some selector ↔
    w.enclose marker = nest selector marker ∧ StyleTree.isAtRule selector = false := by
  rw [plainSelector?, enclose]
  split
  · rename_i key inner h
    rw [h, nest, Option.ite_none_right_eq_some, Bool.and_eq_true, decide_eq_true_eq,
      Bool.not_eq_true']
    constructor
    · rintro ⟨⟨rfl, hkey⟩, hsome⟩
      obtain rfl := Option.some.inj hsome
      exact ⟨rfl, hkey⟩
    · rintro ⟨heq, hselector⟩
      cases heq
      exact ⟨⟨rfl, hselector⟩, rfl⟩
  · rename_i hne
    refine iff_of_false (by simp) ?_
    rintro ⟨h, -⟩
    exact hne _ _ h

theorem Selects.plainSelector? (h : w.Selects selector) : w.plainSelector? = some selector :=
  plainSelector?_eq_some_iff.mpr
    ⟨h.enclose_eq marker wellKeyed_marker (by decide), h.not_atRule⟩

/-- Without levels that have its key the marker tells what a wrapper adds to any tree. -/
theorem Unmarked.plainSelector?_eq_some_iff (hw : w.Unmarked) :
    w.plainSelector? = some selector ↔ w.Selects selector := by
  refine ⟨fun h => ?_, Selects.plainSelector?⟩
  obtain ⟨hmarker, hatRule⟩ := Wrapper.plainSelector?_eq_some_iff.mp h
  obtain ⟨hne, hall⟩ := hw.routes_of_enclose_marker hmarker
  exact ⟨fun tree htree _ => foldr_wrap_of_routes htree hne hall, hatRule⟩

/-! ## Groups -/

/-- The changes of all members, in order. -/
def postsOf (members : List Wrapper) : List (StyleTree → StyleTree) :=
  (members.flatMap layers).flatMap Wrapping.posts

/-- The marker shows every member in one level, and these are their selectors. -/
def Joinable (members : List Wrapper) (selectors : List Text) : Prop :=
  List.Forall₂ (fun m s => m.plainSelector? = some s) members selectors

variable {members : List Wrapper} {selectors : List Text}

theorem mapM_plainSelector? :
    members.mapM plainSelector? = some selectors ↔ Joinable members selectors := by
  induction members generalizing selectors with
  | nil =>
    rw [List.mapM_nil, Joinable, List.forall₂_nil_left_iff]
    exact ⟨fun h => (Option.some.inj h).symm, fun h => congrArg some h.symm⟩
  | cons m rest ih =>
    rw [List.mapM_cons, Joinable, List.forall₂_cons_left_iff]
    constructor
    · intro h
      obtain ⟨s, hs, h⟩ := Option.bind_eq_some_iff.mp h
      obtain ⟨ss, hss, h⟩ := Option.bind_eq_some_iff.mp h
      exact ⟨s, ss, hs, ih.mp hss, (Option.some.inj h).symm⟩
    · rintro ⟨s, ss, hs, hss, rfl⟩
      rw [hs, ih.mpr hss]
      rfl

theorem Joinable.exists_of_mem (h : Joinable members selectors) {m : Wrapper} (hm : m ∈ members) :
    ∃ selector, m.plainSelector? = some selector := by
  induction h with
  | nil => exact absurd hm List.not_mem_nil
  | cons hfirst _ ih =>
    rcases List.mem_cons.mp hm with rfl | hm
    · exact ⟨_, hfirst⟩
    · exact ih hm

/-- Several members that the marker shows in one level each are joined. -/
theorem Joinable.group_eq (h : Joinable members selectors) (hlength : 2 ≤ members.length) :
    group members =
      single { templates := [[Text.joinWith ", " selectors]], posts := postsOf members } := by
  rw [group, mapM_plainSelector?.mpr h]
  obtain ⟨s, t, rest, rfl⟩ : ∃ s t rest, selectors = s :: t :: rest := by
    rw [List.Forall₂.length_eq h] at hlength
    match selectors, hlength with
    | s :: t :: rest, _ => exact ⟨s, t, rest, rfl⟩
  rfl

/-- Other members are put around each other. -/
theorem layers_group (h : ∀ selectors, ¬Joinable members selectors) :
    (group members).layers = members.flatMap layers := by
  have hnone : members.mapM plainSelector? = none :=
    Option.eq_none_iff_forall_not_mem.mpr fun selectors hselectors =>
      h selectors (mapM_plainSelector?.mp hselectors)
  rw [group, hnone]
  exact layers_foldl_around members identity

/-- One member is its own group. -/
theorem group_singleton (w : Wrapper) : group [w] = w := by
  rw [group, List.mapM_cons, List.mapM_nil]
  cases w.plainSelector? <;> exact identity_around w

theorem foldr_apply_flatMap_layers (members : List Wrapper) (tree : StyleTree) :
    (members.flatMap layers).foldr Wrapping.apply tree =
      members.foldr (fun m inner => m.layers.foldr Wrapping.apply inner) tree := by
  rw [List.flatMap_def, List.foldr_flatten, List.foldr_map]

/-! ## Groups in groups -/

theorem plainSelector?_single {selector : Text} (posts : List (StyleTree → StyleTree))
    (h : StyleTree.isAtRule selector = false) :
    (single { templates := [[selector]], posts }).plainSelector? = some selector :=
  plainSelector?_eq_some_iff.mpr ⟨rfl, h⟩

/-- A group of selectors is a selector again, the joined one. -/
theorem Joinable.plainSelector?_group (h : Joinable members selectors) (hne : members ≠ []) :
    (group members).plainSelector? = some (Text.joinWith ", " selectors) := by
  cases h with
  | nil => exact absurd rfl hne
  | cons hfirst hrest =>
    cases hrest with
    | nil =>
      rw [group_singleton]
      exact hfirst
    | cons hsecond hrest =>
      rw [Joinable.group_eq (.cons hfirst (.cons hsecond hrest)) (by simp)]
      exact plainSelector?_single _
        (StyleTree.isAtRule_joinWith (plainSelector?_eq_some_iff.mp hfirst).2 _)

/-- Joining keeps the changes. -/
theorem Joinable.postsOf_group (h : Joinable members selectors) :
    (group members).layers.flatMap Wrapping.posts = postsOf members := by
  match members, h with
  | [], _ => rfl
  | [w], _ =>
    rw [group_singleton, postsOf, List.flatMap_singleton]
  | first :: second :: rest, h =>
    rw [h.group_eq (by simp)]
    exact List.flatMap_singleton ..

section

variable {families : List (List Wrapper)} {selectors : List (List Text)}

theorem joinable_map_group (h : List.Forall₂ Joinable families selectors)
    (hne : ∀ family ∈ families, family ≠ []) :
    Joinable (families.map group) (selectors.map (Text.joinWith ", ")) ∧
      (∀ joined ∈ selectors, joined ≠ []) ∧
      postsOf (families.map group) = postsOf families.flatten := by
  induction h with
  | nil => exact ⟨.nil, fun _ h => absurd h List.not_mem_nil, rfl⟩
  | @cons family joined _ _ hfirst _ ih =>
    obtain ⟨hfamily, hrest⟩ := List.forall_mem_cons.mp hne
    obtain ⟨hgroups, hjoined, hposts⟩ := ih hrest
    refine ⟨.cons (hfirst.plainSelector?_group hfamily) hgroups,
      List.forall_mem_cons.mpr ⟨?_, hjoined⟩, ?_⟩
    · rintro rfl
      exact hfamily (List.forall₂_nil_right_iff.mp hfirst)
    · rw [postsOf] at hposts
      rw [postsOf, List.map_cons, List.flatMap_cons, List.flatMap_append, hposts,
        hfirst.postsOf_group, postsOf, postsOf, postsOf, List.flatten_cons, List.flatMap_append,
        List.flatMap_append]

/-- Groups of selectors may be taken apart in a group. -/
theorem group_map_group (h : List.Forall₂ Joinable families selectors)
    (hne : ∀ family ∈ families, family ≠ []) :
    group (families.map group) = group families.flatten := by
  obtain ⟨hgroups, hjoined, hposts⟩ := joinable_map_group h hne
  have hflatten : Joinable families.flatten selectors.flatten := List.rel_flatten h
  match families, hne with
  | [], _ => rfl
  | [family], _ => rw [List.map_cons, List.map_nil, group_singleton, List.flatten_singleton]
  | first :: second :: rest, hne =>
    have hfirst : 0 < first.length :=
      List.length_pos_iff.mpr (hne first List.mem_cons_self)
    have hsecond : 0 < second.length :=
      List.length_pos_iff.mpr (hne second (List.mem_cons_of_mem _ List.mem_cons_self))
    have hlength : 2 ≤ (first :: second :: rest).flatten.length := by
      rw [List.flatten_cons, List.flatten_cons, List.length_append, List.length_append]
      omega
    rw [hgroups.group_eq (by simp), hflatten.group_eq hlength, Text.joinWith_flatten _ hjoined,
      hposts]

end

/-- Wrappers grouped to some depth.  A group has a first member, so none is empty. -/
inductive Grouping where
  | member (w : Wrapper)
  | group (first : Grouping) (rest : List Grouping)

mutual

/-- The wrapper of a grouping: every group is made of the wrappers of its members. -/
def Grouping.wrapper : Grouping → Wrapper
  | .member w => w
  | .group first rest => Wrapper.group (first.wrapper :: wrappersOf rest)

def Grouping.wrappersOf : List Grouping → List Wrapper
  | [] => []
  | g :: rest => g.wrapper :: wrappersOf rest

end

mutual

/-- The wrappers that are grouped, in order and at any depth. -/
def Grouping.leaves : Grouping → List Wrapper
  | .member w => [w]
  | .group first rest => first.leaves ++ leavesOf rest

def Grouping.leavesOf : List Grouping → List Wrapper
  | [] => []
  | g :: rest => g.leaves ++ leavesOf rest

end

/-- The selectors that the marker shows, one for each member. -/
theorem joinable_of_forall (h : ∀ w ∈ members, ∃ s, w.plainSelector? = some s) :
    Joinable members (members.map fun w => w.plainSelector?.getD []) := by
  refine List.forall₂_map_right_iff.mpr (List.forall₂_same.mpr fun w hw => ?_)
  obtain ⟨s, hs⟩ := h w hw
  rw [hs]
  rfl

namespace Grouping

theorem leaves_ne_nil : ∀ g : Grouping, g.leaves ≠ []
  | .member w => List.cons_ne_nil w []
  | .group first _ => List.append_ne_nil_of_left_ne_nil first.leaves_ne_nil _

theorem leavesOf_eq_flatten (gs : List Grouping) : leavesOf gs = (gs.map leaves).flatten := by
  induction gs with
  | nil => rfl
  | cons g rest ih => rw [leavesOf, ih, List.map_cons, List.flatten_cons]

theorem wrappersOf_eq_map (gs : List Grouping) : wrappersOf gs = gs.map wrapper := by
  induction gs with
  | nil => rfl
  | cons g rest ih => rw [wrappersOf, ih, List.map_cons]

/-- Groupings that may each be grouped at once may all be grouped at once. -/
theorem group_leavesOf {gs : List Grouping} (hgs : ∀ g ∈ gs, g.wrapper = Wrapper.group g.leaves)
    (h : ∀ w ∈ leavesOf gs, ∃ s, w.plainSelector? = some s) :
    Wrapper.group (wrappersOf gs) = Wrapper.group (leavesOf gs) := by
  have hwrappers : wrappersOf gs = (gs.map leaves).map Wrapper.group := by
    rw [wrappersOf_eq_map, List.map_map]
    exact List.map_congr_left hgs
  rw [leavesOf_eq_flatten] at h ⊢
  have hshown : List.Forall₂ Joinable (gs.map leaves)
      ((gs.map leaves).map (List.map fun w => w.plainSelector?.getD [])) :=
    List.forall₂_map_right_iff.mpr <| List.forall₂_same.mpr fun family hfamily =>
      joinable_of_forall fun w hw => h w (List.mem_flatten_of_mem hfamily hw)
  rw [hwrappers, group_map_group hshown]
  intro family hfamily
  obtain ⟨g, -, rfl⟩ := List.mem_map.mp hfamily
  exact g.leaves_ne_nil

mutual

/-- Groups of selectors flatten: their wrappers may be grouped at once. -/
theorem wrapper_eq : ∀ {g : Grouping}, (∀ w ∈ g.leaves, ∃ s, w.plainSelector? = some s) →
    g.wrapper = Wrapper.group g.leaves
  | .member w, _ => (group_singleton w).symm
  | .group first rest, h => by
    have hfirst := wrapper_eq fun w hw => h w (List.mem_append_left _ hw)
    have hrest := wrapper_eq_of_mem fun w hw => h w (List.mem_append_right _ hw)
    have hall : ∀ g ∈ first :: rest, g.wrapper = Wrapper.group g.leaves :=
      List.forall_mem_cons.mpr ⟨hfirst, hrest⟩
    exact group_leavesOf hall h

theorem wrapper_eq_of_mem : ∀ {gs : List Grouping},
    (∀ w ∈ leavesOf gs, ∃ s, w.plainSelector? = some s) →
      ∀ g ∈ gs, g.wrapper = Wrapper.group g.leaves
  | [], _ => fun _ h => absurd h List.not_mem_nil
  | g :: rest, h => by
    have hfirst := wrapper_eq fun w hw => h w (List.mem_append_left _ hw)
    have hrest := wrapper_eq_of_mem fun w hw => h w (List.mem_append_right _ hw)
    exact List.forall_mem_cons.mpr ⟨hfirst, hrest⟩

end

end Grouping

/-! ## Joined or around each other -/

theorem joinable_of_selects (h : List.Forall₂ Selects members selectors) :
    Joinable members selectors :=
  h.imp fun _ _ => Selects.plainSelector?

/-- A group of wrappers that each add one selector puts one level around the tree, with all the
selectors, after the changes of all members in order.  If one member adds something else, and no
level of that member has the key of the marker, the members are put around each other, the first
one outermost.  And groups in which there are only selectors, at any depth, are the group of all
that is in them. -/
theorem apply_group (members : List Wrapper) (tree : StyleTree) (g : Grouping)
    (hlength : 2 ≤ members.length) (htree : tree ≠ []) :
    (∀ selectors, List.Forall₂ Selects members selectors →
      (group members).apply tree = nest (Text.joinWith ", " selectors)
        ((postsOf members).foldl (fun tree post => post tree) tree)) ∧
    ((∃ m ∈ members, m.Unmarked ∧ ∀ selector, ¬m.Selects selector) →
      (group members).apply tree =
        members.foldr (fun m inner => m.layers.foldr Wrapping.apply inner) tree) ∧
    ((∀ w ∈ g.leaves, ∃ selector, w.Selects selector) → g.wrapper = group g.leaves) := by
  refine ⟨?_, ?_, ?_⟩
  · intro selectors h
    rw [apply_of_ne_nil _ htree, (joinable_of_selects h).group_eq hlength]
    rfl
  · rintro ⟨m, hm, hmarked, hnot⟩
    have hjoinable : ∀ selectors, ¬Joinable members selectors := by
      intro selectors h
      obtain ⟨selector, hselector⟩ := h.exists_of_mem hm
      exact hnot selector (hmarked.plainSelector?_eq_some_iff.mp hselector)
    rw [apply_of_ne_nil _ htree, layers_group hjoinable, foldr_apply_flatMap_layers]
  · intro h
    exact Grouping.wrapper_eq fun w hw => (h w hw).imp fun _ => Selects.plainSelector?

/-- The variant of a selector adds it. -/
theorem selects_single {selector : Text} (posts : List (StyleTree → StyleTree))
    (h : StyleTree.isAtRule selector = false) :
    (single { templates := [[selector]], posts }).Selects selector :=
  ⟨fun _ _ _ => rfl, h⟩

/-- Selectors with changes of their own, alone and with an at-rule among them, and in groups. -/
theorem apply_group_focus :
    let insert (key : Text) (tree : StyleTree) : StyleTree := Keyed.put key (.scalar "1") tree
    let focus := single (Wrapping.ofTemplates ["&:focus"] (some (insert "a")))
    let active := single (Wrapping.ofTemplates ["&:active"] (some (insert "b")))
    let print := single (Wrapping.ofTemplates ["@media print"] none)
    let flex : StyleTree := [("display", .scalar "flex")]
    let changed : StyleTree := [("display", .scalar "flex"), ("a", .scalar "1"), ("b", .scalar "1")]
    (group [focus, active]).apply flex = nest "&:focus, &:active" changed ∧
      (group [focus, print]).apply flex = nest "&:focus"
        [("@media print", .tree flex), ("a", .scalar "1")] ∧
      group [group [focus, group [active]], focus] = group [focus, active, focus] := by
  intro insert focus active print flex changed
  have hfocus : focus.Selects "&:focus" := selects_single [insert "a"] (by decide)
  have hactive : active.Selects "&:active" := selects_single [insert "b"] (by decide)
  have hprint : ∀ selector, ¬print.Selects selector := by
    intro selector h
    have hmarker : nest "@media print" marker = nest selector marker :=
      h.enclose_eq marker wellKeyed_marker (by decide)
    obtain rfl : ("@media print" : Text) = selector := by simpa [nest] using hmarker
    exact absurd h.not_atRule (by decide)
  have hunmarked : print.Unmarked := by decide
  let groups : Grouping :=
    .group (.group (.member focus) [.group (.member active) []]) [.member focus]
  obtain ⟨hjoined, -, hflatten⟩ :=
    apply_group [focus, active] flex groups (by decide) (by decide)
  obtain ⟨-, hnested, -⟩ := apply_group [focus, print] flex groups (by decide) (by decide)
  refine ⟨(hjoined _ (.cons hfocus (.cons hactive .nil))).trans (by decide),
    (hnested ⟨print, by simp, hunmarked, hprint⟩).trans (by decide), hflatten fun w hw => ?_⟩
  have hmem : w = focus ∨ w = active ∨ w = focus := by
    simpa [groups, Grouping.leaves, Grouping.leavesOf] using hw
  rcases hmem with rfl | rfl | rfl
  · exact ⟨_, hfocus⟩
  · exact ⟨_, hactive⟩
  · exact ⟨_, hfocus⟩

/-- A level with the key of the marker: a variant that leaves the tree where it is, and puts it into
that level as well, is taken for one that only adds the level, and is joined. -/
theorem apply_group_marker :
    let marking := single (Wrapping.ofTemplates ["", "--marker"] none)
    let hover := single (Wrapping.ofTemplates ["&:hover"] none)
    let flex : StyleTree := [("display", .scalar "flex")]
    (∀ selector, ¬marking.Selects selector) ∧
      (group [marking, hover]).apply flex = nest "--marker, &:hover" flex ∧
      [marking, hover].foldr (fun m inner => m.layers.foldr Wrapping.apply inner) flex =
        ([("&:hover", .tree flex), ("--marker", .tree (nest "&:hover" flex))] : StyleTree) := by
  intro marking hover flex
  refine ⟨fun selector h => ?_, by decide, by decide⟩
  have hflex : marking.enclose flex = nest selector flex :=
    h.enclose_eq flex (WellKeyed.scalar _ _) (by decide)
  have hlength : 2 = 1 := congrArg List.length hflex
  exact absurd hlength (by decide)

end Wrapper
end UtilityCss
