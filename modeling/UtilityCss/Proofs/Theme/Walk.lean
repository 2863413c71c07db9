import Mathlib.Data.List.Flatten
import UtilityCss.Proofs.Text
import UtilityCss.Theme.Path

/-!
# Walks along a path

A path leads to a value if its segments can be cut into runs each of which takes a step: the
segments of a run, with dots between them, are a key of an object, and a single segment may also be
a position in a list.  `Leads` says this without an order in which the runs are tried.

The walk finds a value whenever some runs lead to one, and of all such runs it follows those whose
lengths are least in the order of dictionaries.  Both come from one equation, `walk_object`: at an
object the walk tries the runs at the front of the path by length, and takes the first one from
which the rest of the path goes on.
-/

namespace UtilityCss
namespace Path

/-- Do the runs of segments lead from a value to another one? -/
inductive Leads : Data → List (List Text) → Data → Prop where
  | here (d : Data) : Leads d [] d
  | member {members : List (Text × Data)} {run : List Text} {value : Data}
      {runs : List (List Text)} {found : Data} : run ≠ [] →
    members.lookup (Text.joinWith ['.'] run) = some value → Leads value runs found →
    Leads (.object members) (run :: runs) found
  | item {items : List Data} {segment : Text} {i : Nat} {value : Data}
      {runs : List (List Text)} {found : Data} : index? segment = some i →
    items[i]? = some value → Leads value runs found →
    Leads (.list items) ([segment] :: runs) found

/-- The runs lead along the segments to a value, and of those that lead anywhere none come before
them in the order of dictionaries on the lengths. -/
structure LeastWay (d : Data) (segments : List Text) (runs : List (List Text)) (found : Data) :
    Prop where
  flatten : runs.flatten = segments
  leads : Leads d runs found
  least : ∀ runs' found', runs'.flatten = segments → Leads d runs' found' →
    ¬List.Lex (· < ·) (runs'.map List.length) (runs.map List.length)

variable {d found : Data} {members : List (Text × Data)} {items : List Data}
  {segments : List Text} {runs : List (List Text)}

theorem Leads.nil_not_mem (h : Leads d runs found) : [] ∉ runs := by
  induction h with
  | here d => exact List.not_mem_nil
  | member hrun _ _ ih => exact List.not_mem_cons_of_ne_of_not_mem (Ne.symm hrun) ih
  | item _ _ _ ih => exact List.not_mem_cons_of_ne_of_not_mem (List.cons_ne_nil _ _).symm ih

/-- The same runs lead to one value only. -/
theorem Leads.unique {found' : Data} (h : Leads d runs found) (h' : Leads d runs found') :
    found = found' := by
  induction h with
  | here d =>
    cases h'
    rfl
  | member _ hvalue _ ih =>
    cases h' with
    | member _ hvalue' hleads' =>
      obtain rfl := Option.some.inj (hvalue.symm.trans hvalue')
      exact ih hleads'
  | item hindex hvalue _ ih =>
    cases h' with
    | item hindex' hvalue' hleads' =>
      obtain rfl := Option.some.inj (hindex.symm.trans hindex')
      obtain rfl := Option.some.inj (hvalue.symm.trans hvalue')
      exact ih hleads'

/-! ## The steps of the walk -/

/-- The first of the walks along the endings of a path is the one along all of it. -/
theorem ways_cons (first : Text) (rest : List Text) :
    ways (first :: rest) = (walk · (first :: rest)) :: ways rest := rfl

/-- A run at the front of a path is tried as a key first, and longer ones after it. -/
theorem along_joinWith (members : List (Text × Data)) : ∀ {run : List Text}, run ≠ [] →
    ∀ rest : List Text, along members (Text.joinWith ['.'] run) rest (ways rest) =
      (List.range (rest.length + 1)).findSome? fun n =>
        (members.lookup (Text.joinWith ['.'] (run ++ rest.take n))).bind (walk · (rest.drop n))
  | run, _, [] => by
    rw [ways, along, List.length_nil, List.range_one, List.findSome?_cons, List.take_nil,
      List.append_nil, List.drop_nil]
    simp only [walk_nil]
    cases members.lookup (Text.joinWith ['.'] run) <;> rfl
  | run, hrun, segment :: rest => by
    have hrun' : run ++ [segment] ≠ [] := by simp
    have hlonger := along_joinWith members hrun' rest
    rw [Text.joinWith_concat ['.'] segment hrun] at hlonger
    have hnext : ∀ n, run ++ (segment :: rest).take (n + 1) = run ++ [segment] ++ rest.take n :=
      fun n => by simp
    rw [ways_cons, along, List.length_cons, List.range_succ_eq_map, List.findSome?_cons,
      List.findSome?_map]
    simp only [List.take_zero, List.append_nil, List.drop_zero]
    cases (members.lookup (Text.joinWith ['.'] run)).bind (walk · (segment :: rest)) with
    | some found => rfl
    | none =>
      refine Eq.trans hlonger ?_
      simp only [Function.comp_def, Nat.succ_eq_add_one, hnext, List.drop_succ_cons]

/-- At an object the runs at the front of the path are tried by length. -/
theorem walk_object (members : List (Text × Data)) (first : Text) (rest : List Text) :
    walk (.object members) (first :: rest) =
      (List.range (rest.length + 1)).findSome? fun n =>
        (members.lookup (Text.joinWith ['.'] (first :: rest.take n))).bind
          (walk · (rest.drop n)) :=
  along_joinWith members (List.cons_ne_nil first []) rest

theorem walk_list (items : List Data) (first : Text) (rest : List Text) :
    walk (.list items) (first :: rest) =
      (index? first).bind fun i => items[i]?.bind (walk · rest) := by
  cases rest <;> rfl

/-- What is found along the numbers below a bound is found at the least of them that yields
anything. -/
theorem findSome?_range_eq_some {α : Type} {f : Nat → Option α} {b : α} {n : Nat}
    (h : (List.range n).findSome? f = some b) : ∃ k < n, f k = some b ∧ ∀ j < k, f j = none := by
  obtain ⟨before, k, behind, hrange, hk, hnone⟩ := List.findSome?_eq_some_iff.mp h
  have hkn : k < n := List.mem_range.mp (by simp [hrange])
  refine ⟨k, hkn, hk, fun j hj => ?_⟩
  have hsorted := List.pairwise_lt_range (n := n)
  have hmem := List.mem_range.mpr (Nat.lt_trans hj hkn)
  rw [hrange, List.pairwise_append, List.pairwise_cons] at hsorted
  rw [hrange, List.mem_append, List.mem_cons] at hmem
  rcases hmem with hbefore | rfl | hbehind
  · exact hnone j hbefore
  · exact absurd hj (Nat.lt_irrefl j)
  · exact absurd (Nat.lt_trans hj (hsorted.2.1.1 j hbehind)) (Nat.lt_irrefl j)

/-- What does not come before begins with a larger number, or goes on so behind the same one. -/
theorem not_lex_cons_iff {a b : Nat} {t u : List Nat} : ¬List.Lex (· < ·) (b :: u) (a :: t) ↔
    a < b ∨ a = b ∧ ¬List.Lex (· < ·) u t :=
  List.cons_le_cons_iff

/-! ## Every way is found -/

/-- Where some runs lead anywhere the walk finds a value. -/
theorem Leads.isSome_walk (h : Leads d runs found) : (walk d runs.flatten).isSome = true := by
  induction h with
  | here d => rfl
  | @member members run value runs found hrun hvalue _ ih =>
    obtain ⟨first, more, rfl⟩ := List.exists_cons_of_ne_nil hrun
    rw [List.flatten_cons, List.cons_append, walk_object, List.findSome?_isSome_iff]
    refine ⟨more.length, List.mem_range.mpr ?_, ?_⟩
    · rw [List.length_append]
      omega
    · rw [List.take_left' rfl, List.drop_left' rfl, hvalue]
      exact ih
  | item hindex hvalue _ ih =>
    rw [List.flatten_cons, List.singleton_append, walk_list, hindex, Option.bind_some, hvalue]
    exact ih

/-- At an object a least way begins with the shortest run from which the walk goes on. -/
theorem LeastWay.member {first : Text} {rest : List Text} {n : Nat} {value : Data}
    (hn : n < rest.length + 1)
    (hvalue : members.lookup (Text.joinWith ['.'] (first :: rest.take n)) = some value)
    (hshorter : ∀ m < n, (members.lookup (Text.joinWith ['.'] (first :: rest.take m))).bind
      (walk · (rest.drop m)) = none)
    (h : LeastWay value (rest.drop n) runs found) :
    LeastWay (.object members) (first :: rest) ((first :: rest.take n) :: runs) found where
  flatten := by
    rw [List.flatten_cons, h.flatten, List.cons_append, List.take_append_drop]
  leads := .member (List.cons_ne_nil _ _) hvalue h.leads
  least := by
    rintro (_ | ⟨run', runs'⟩) found' hflatten hleads
    · exact absurd hflatten (List.cons_ne_nil _ _).symm
    obtain _ | ⟨hrun', hvalue', hleads'⟩ := hleads
    obtain ⟨first', more, rfl⟩ := List.exists_cons_of_ne_nil hrun'
    obtain ⟨rfl, rfl⟩ : first' = first ∧ more ++ runs'.flatten = rest := List.cons.inj hflatten
    have htake : ((more ++ runs'.flatten).take n).length = n := List.length_take_of_le (by omega)
    rw [List.map_cons, List.map_cons, not_lex_cons_iff, List.length_cons, List.length_cons, htake]
    rcases Nat.lt_trichotomy more.length n with hless | rfl | hmore
    · -- a shorter run takes no step from which the walk goes on
      have hnone := hshorter more.length hless
      rw [List.take_left' rfl, List.drop_left' rfl, hvalue', Option.bind_some] at hnone
      exact absurd hnone (Option.isSome_iff_ne_none.mp hleads'.isSome_walk)
    · rw [List.take_left' rfl, hvalue'] at hvalue
      rw [List.drop_left' rfl] at h
      obtain rfl := Option.some.inj hvalue
      exact .inr ⟨rfl, h.least runs' found' rfl hleads'⟩
    · exact .inl (by omega)

theorem LeastWay.item {first : Text} {rest : List Text} {i : Nat} {value : Data}
    (hindex : index? first = some i) (hvalue : items[i]? = some value)
    (h : LeastWay value rest runs found) :
    LeastWay (.list items) (first :: rest) ([first] :: runs) found where
  flatten := by rw [List.flatten_cons, h.flatten, List.singleton_append]
  leads := .item hindex hvalue h.leads
  least := by
    rintro (_ | ⟨run', runs'⟩) found' hflatten hleads
    · exact absurd hflatten (List.cons_ne_nil _ _).symm
    obtain _ | _ | ⟨hindex', hvalue', hleads'⟩ := hleads
    obtain ⟨rfl, rfl⟩ := List.cons.inj hflatten
    obtain rfl := Option.some.inj (hindex.symm.trans hindex')
    obtain rfl := Option.some.inj (hvalue.symm.trans hvalue')
    rw [List.map_cons, List.map_cons, not_lex_cons_iff]
    exact .inr ⟨rfl, h.least runs' found' rfl hleads'⟩

/-- What the walk finds lies at the end of a least way. -/
theorem exists_leastWay : ∀ {segments : List Text} {d found : Data},
    walk d segments = some found → ∃ runs, LeastWay d segments runs found
  | [], d, found, h => by
    obtain rfl := Option.some.inj h
    exact ⟨[], rfl, .here d, fun _ _ _ _ => List.not_lex_nil⟩
  | first :: rest, .object members, found, h => by
    rw [walk_object] at h
    obtain ⟨n, hn, hfound, hshorter⟩ := findSome?_range_eq_some h
    obtain ⟨value, hvalue, hwalk⟩ := Option.bind_eq_some_iff.mp hfound
    obtain ⟨runs, hruns⟩ := exists_leastWay hwalk
    exact ⟨_, hruns.member hn hvalue hshorter⟩
  | first :: rest, .list items, found, h => by
    rw [walk_list] at h
    obtain ⟨i, hindex, h⟩ := Option.bind_eq_some_iff.mp h
    obtain ⟨value, hvalue, hwalk⟩ := Option.bind_eq_some_iff.mp h
    obtain ⟨runs, hruns⟩ := exists_leastWay hwalk
    exact ⟨_, hruns.item hindex hvalue⟩
  | _ :: _, .null, _, h | _ :: _, .bool _, _, h | _ :: _, .number _, _, h
  | _ :: _, .text _, _, h => absurd h (by cases ‹List Text› <;> exact nofun)
termination_by segments => segments.length

/-! ## The way that is taken -/

/-- There is one least way at most. -/
theorem LeastWay.unique {runs' : List (List Text)} {found' : Data}
    (h : LeastWay d segments runs found) (h' : LeastWay d segments runs' found') :
    runs = runs' ∧ found = found' := by
  have hlengths : runs.map List.length = runs'.map List.length :=
    List.le_antisymm (h.least _ _ h'.flatten h'.leads) (h'.least _ _ h.flatten h.leads)
  obtain rfl := List.eq_iff_flatten_eq.mpr ⟨h.flatten.trans h'.flatten.symm, hlengths⟩
  exact ⟨rfl, h.leads.unique h'.leads⟩

theorem walk_eq_some_iff_leastWay :
    walk d segments = some found ↔ ∃ runs, LeastWay d segments runs found := by
  refine ⟨exists_leastWay, fun ⟨runs, hruns⟩ => ?_⟩
  have hsome := hruns.leads.isSome_walk
  rw [hruns.flatten] at hsome
  obtain ⟨found', hfound'⟩ := Option.isSome_iff_exists.mp hsome
  obtain ⟨runs', hruns'⟩ := exists_leastWay hfound'
  rw [hfound', (hruns.unique hruns').2]

/-- No runs come before those of one segment each. -/
theorem not_lex_singletons : ∀ {runs : List (List Text)}, [] ∉ runs →
    ¬List.Lex (· < ·) (runs.map List.length)
      ((runs.flatten.map fun segment => [segment]).map List.length)
  | [], _ => List.not_lex_nil
  | run :: runs, h => by
    rw [List.mem_cons, not_or] at h
    obtain ⟨first, more, rfl⟩ := List.exists_cons_of_ne_nil (Ne.symm h.1)
    rw [List.flatten_cons, List.cons_append, List.map_cons, List.map_cons, List.map_cons,
      not_lex_cons_iff]
    cases more with
    | nil => exact .inr ⟨rfl, not_lex_singletons h.2⟩
    | cons => exact .inl (by simp)

/-- A path that leads to a value as it is written is walked so. -/
theorem leastWay_singletons (h : Leads d (segments.map fun segment => [segment]) found) :
    LeastWay d segments (segments.map fun segment => [segment]) found where
  flatten := by rw [← List.flatMap_def, List.flatMap_singleton']
  leads := h
  least := by
    rintro runs' found' rfl hleads'
    exact not_lex_singletons hleads'.nil_not_mem

/-- **A walk finds a value if some runs lead to one, and follows the least of them.**  A path that
leads somewhere as it is written is never shadowed by a key with dots. -/
theorem walk_finds_least (d : Data) (segments : List Text) :
    ((∃ found, walk d segments = some found) ↔
      ∃ runs found, runs.flatten = segments ∧ Leads d runs found) ∧
    (∀ found, walk d segments = some found ↔ ∃ runs, LeastWay d segments runs found) ∧
    ∀ found, Leads d (segments.map fun segment => [segment]) found →
      walk d segments = some found := by
  refine ⟨⟨?_, ?_⟩, fun _ => walk_eq_some_iff_leastWay, fun found hleads => ?_⟩
  · rintro ⟨found, hfound⟩
    obtain ⟨runs, hruns⟩ := exists_leastWay hfound
    exact ⟨runs, found, hruns.flatten, hruns.leads⟩
  · rintro ⟨runs, found, rfl, hleads⟩
    exact Option.isSome_iff_exists.mp hleads.isSome_walk
  · exact walk_eq_some_iff_leastWay.mpr ⟨_, leastWay_singletons hleads⟩

/-- Keys with dots stand at two levels beside those that are written. -/
theorem walk_finds_least_dotted :
    let written : Data := .object [("c", .list [.null, .text "written"])]
    let d : Data := .object [("a.b", .object [("c", .list [])]),
      ("a", .object [("b.c", .list [.null, .text "dotted"]), ("b", written)])]
    let segments := Text.listOf ["a", "b", "c", "1"]
    Leads d (segments.map fun segment => [segment]) (.text "written") ∧
      walk d segments = some (.text "written") := by
  intro written d segments
  have hleads : Leads d (segments.map fun segment => [segment]) (.text "written") :=
    .member (List.cons_ne_nil _ _) rfl <| .member (List.cons_ne_nil _ _) rfl <|
      .member (List.cons_ne_nil _ _) rfl <| .item rfl rfl (.here _)
  exact ⟨hleads, (walk_finds_least d segments).2.2 _ hleads⟩

end Path
end UtilityCss
