import UtilityCss.Proofs.Keyed
import UtilityCss.Proofs.Text
import UtilityCss.Theme.Basic

/-!
# The table of a category

The table of a category is written while the category is walked through: every leaf is written under
a name that is put together on the way to it.  Here the walk and the names are taken apart.  The
leaves of a value are listed with the keys that lead to them, depth first, and a name is made of
these keys alone.  The table is then what comes of writing the named leaves one after the other, so
that nothing but two leaves of one name keeps it from being the list of them.
-/

namespace UtilityCss
namespace Theme

/-- Do the keys lead to a leaf of the value, which is anything but an object? -/
inductive LeafAt : Data → List Text → Data → Prop where
  | here {leaf : Data} : leaf.isObject = false → LeafAt leaf [] leaf
  | member {members : List (Text × Data)} {key : Text} {value : Data} {path : List Text}
      {leaf : Data} : (key, value) ∈ members → LeafAt value path leaf →
    LeafAt (.object members) (key :: path) leaf

mutual

/-- The leaves of a value, depth first, each with the keys that lead to it. -/
def leaves : Data → List (List Text × Data)
  | .object members => memberLeaves members
  | leaf => [([], leaf)]

/-- The leaves of the members of an object, in their order. -/
def memberLeaves : List (Text × Data) → List (List Text × Data)
  | [] => []
  | (key, value) :: rest =>
    (leaves value).map (fun leaf => (key :: leaf.1, leaf.2)) ++ memberLeaves rest

end

/-- The keys that lead to a leaf, with hyphens between them.  Below the first one, the key `DEFAULT`
is left out. -/
def leafName : List Text → Text
  | [] => []
  | first :: rest => Text.joinWith ['-'] (first :: rest.filter (· ≠ "DEFAULT".toList))

/-- The leaves of a value under their names, depth first. -/
def namedLeaves (d : Data) : ValueTable := (leaves d).map fun leaf => (leafName leaf.1, leaf.2)

theorem leaves_of_not_object {leaf : Data} (h : leaf.isObject = false) :
    leaves leaf = [([], leaf)] := by
  cases leaf with
  | object members => exact Bool.noConfusion h
  | _ => rfl

theorem memberLeaves_eq_flatMap (members : List (Text × Data)) :
    memberLeaves members =
      members.flatMap fun entry =>
        (leaves entry.2).map fun leaf => (entry.1 :: leaf.1, leaf.2) := by
  induction members with
  | nil => rfl
  | cons entry rest ih => rw [memberLeaves, ih, List.flatMap_cons]

mutual

/-- The leaves that are listed are those that keys lead to. -/
theorem mem_leaves_iff : ∀ (d : Data) (path : List Text) (leaf : Data),
    (path, leaf) ∈ leaves d ↔ LeafAt d path leaf
  | .object members, path, leaf => by
    rw [leaves, mem_memberLeaves_iff]
    constructor
    · rintro ⟨key, value, rest, rfl, hmember, hleaf⟩
      exact .member hmember hleaf
    · rintro (hleaf | ⟨hmember, hleaf⟩)
      · exact Bool.noConfusion hleaf
      · exact ⟨_, _, _, rfl, hmember, hleaf⟩
  | .null, path, leaf | .bool _, path, leaf | .number _, path, leaf | .text _, path, leaf
  | .list _, path, leaf => by
    rw [leaves_of_not_object rfl, List.mem_singleton]
    constructor
    · intro h
      obtain ⟨rfl, rfl⟩ := Prod.mk.inj h
      exact .here rfl
    · rintro ⟨-⟩
      rfl

theorem mem_memberLeaves_iff : ∀ (members : List (Text × Data)) (path : List Text) (leaf : Data),
    (path, leaf) ∈ memberLeaves members ↔
      ∃ key value rest, path = key :: rest ∧ (key, value) ∈ members ∧ LeafAt value rest leaf
  | [], path, leaf => by simp [memberLeaves]
  | (key, value) :: members, path, leaf => by
    rw [memberLeaves, List.mem_append, List.mem_map, mem_memberLeaves_iff members]
    constructor
    · rintro (⟨⟨rest, leaf'⟩, hleaf, heq⟩ | ⟨key', value', rest, rfl, hmember, hleaf⟩)
      · obtain ⟨rfl, rfl⟩ := Prod.mk.inj heq
        exact ⟨key, value, rest, rfl, List.mem_cons_self, (mem_leaves_iff value _ _).mp hleaf⟩
      · exact ⟨key', value', rest, rfl, List.mem_cons_of_mem _ hmember, hleaf⟩
    · rintro ⟨key', value', rest, rfl, hmember, hleaf⟩
      rcases List.mem_cons.mp hmember with heq | hmember
      · obtain ⟨rfl, rfl⟩ := Prod.mk.inj heq
        exact .inl ⟨(rest, leaf), (mem_leaves_iff value' _ _).mpr hleaf, rfl⟩
      · exact .inr ⟨key', value', rest, rfl, hmember, hleaf⟩

end

/-! ## Names -/

/-- What the keys below the first one add to a name. -/
def nameEnd : List Text → Text
  | [] => []
  | key :: path => if key = "DEFAULT" then nameEnd path else '-' :: key ++ nameEnd path

theorem leafName_cons (first : Text) (rest : List Text) :
    leafName (first :: rest) = first ++ nameEnd rest := by
  have hjoin : ∀ (first : Text) (kept : List Text),
      Text.joinWith ['-'] (first :: kept) = first ++ kept.flatMap ('-' :: ·) := by
    intro first kept
    induction kept generalizing first with
    | nil => exact (List.append_nil first).symm
    | cons key kept ih =>
      rw [Text.joinWith_cons_cons, ih, List.flatMap_cons, List.append_assoc]
      rfl
  rw [leafName, hjoin, List.append_cancel_left_eq]
  induction rest with
  | nil => rfl
  | cons key rest ih =>
    rw [nameEnd, List.filter_cons]
    by_cases hkey : key = "DEFAULT".toList
    · rw [if_pos hkey, if_neg (by rw [hkey]; decide), ih]
    · rw [if_neg hkey, if_pos (decide_eq_true hkey), List.flatMap_cons, ih]

/-- A key adds to the name that is being put together what it adds to the name of each leaf. -/
theorem append_nameEnd_cons (name key : Text) (path : List Text) :
    (if key = "DEFAULT" then name else name ++ '-' :: key) ++ nameEnd path =
      name ++ nameEnd (key :: path) := by
  rw [nameEnd]
  split
  · rfl
  · rw [List.append_assoc, List.cons_append]

/-! ## The walk through a category -/

mutual

/-- Walking through a value writes its leaves one after the other. -/
theorem flatten_eq_foldl : ∀ (d : Data) (table : ValueTable) (name : Text),
    flatten table name d =
      (leaves d).foldl (fun table leaf => Keyed.put (name ++ nameEnd leaf.1) leaf.2 table) table
  | .object members, table, name => by
    rw [flatten, leaves]
    exact flattenMembers_eq_foldl members table name
  | .null, table, name | .bool _, table, name | .number _, table, name | .text _, table, name
  | .list _, table, name => by
    rw [leaves_of_not_object rfl, List.foldl_cons, List.foldl_nil, nameEnd, List.append_nil]
    rfl

theorem flattenMembers_eq_foldl : ∀ (members : List (Text × Data)) (table : ValueTable)
    (name : Text), flattenMembers table name members =
      (memberLeaves members).foldl
        (fun table leaf => Keyed.put (name ++ nameEnd leaf.1) leaf.2 table) table
  | [], table, name => rfl
  | (key, value) :: rest, table, name => by
    rw [flattenMembers, memberLeaves, List.foldl_append, List.foldl_map,
      ← flattenMembers_eq_foldl rest, flatten_eq_foldl value]
    simp only [append_nameEnd_cons]

end

variable {theme : Theme} {category : Text} {members : List (Text × Data)}

/-- The table is what comes of writing the named leaves one after the other. -/
theorem table_eq_ofList (h : theme.root.member? category = some (.object members)) :
    theme.table category = Keyed.ofList (namedLeaves (.object members)) := by
  have hmember : ∀ (table : ValueTable) (key : Text) (value : Data),
      flatten table key value = (leaves value).foldl (fun table leaf =>
        Keyed.put (leafName (key :: leaf.1)) leaf.2 table) table := by
    intro table key value
    simp only [flatten_eq_foldl, leafName_cons]
  rw [table, h, Keyed.ofList, namedLeaves, leaves, memberLeaves_eq_flatMap, List.foldl_map,
    List.foldl_flatMap]
  simp only [hmember, List.foldl_map]

/-- **A table loses and invents no leaf.**  It has one entry for every leaf, depth first and as it
is, unless two of them have one name.  Of such leaves the first one decides where the entry stands,
and the last one what it holds. -/
theorem table_holds_leaves (h : theme.root.member? category = some (.object members)) :
    (∀ path leaf, (path, leaf) ∈ leaves (.object members) ↔ LeafAt (.object members) path leaf) ∧
    (Keyed.Distinct (namedLeaves (.object members)) →
      theme.table category = namedLeaves (.object members)) ∧
    Keyed.keys (theme.table category) =
      (Keyed.keys (namedLeaves (.object members))).eraseDups ∧
    ∀ name, (theme.table category).lookup name =
      (namedLeaves (.object members)).reverse.lookup name := by
  rw [table_eq_ofList h]
  exact ⟨mem_leaves_iff _, Keyed.ofList_eq_self, Keyed.keys_ofList _, fun _ =>
    Keyed.lookup_ofList _⟩

/-- Leaves at several depths, with the key `DEFAULT` at the first level and below. -/
theorem table_holds_leaves_nested :
    let red : Data := .object [("DEFAULT", .text "#f00"), ("500", .object [("DEFAULT", .null)])]
    let members : List (Text × Data) := [("DEFAULT", .object [("b", .list [])]), ("red", red)]
    let theme : Theme := ⟨.object [("colors", .object members)]⟩
    let entries : List (Text × Data) :=
      [("DEFAULT-b", .list []), ("red", .text "#f00"), ("red-500", .null)]
    theme.root.member? "colors" = some (.object members) ∧
      Keyed.Distinct (namedLeaves (.object members)) ∧
      theme.table "colors" = namedLeaves (.object members) ∧
      namedLeaves (.object members) = entries := by
  intro red members theme entries
  have hobject : theme.root.member? "colors" = some (.object members) := by decide
  have hdistinct : Keyed.Distinct (namedLeaves (.object members)) := by decide
  exact ⟨hobject, hdistinct, (table_holds_leaves hobject).2.1 hdistinct, by decide⟩

/-- Of two leaves of one name the last one is kept, in the place of the first. -/
example :
    let members : List (Text × Data) :=
      [("a", .object [("b", .text "1")]), ("d", .null), ("a-b", .text "2")]
    let entries : List (Text × Data) := [("a-b", .text "2"), ("d", .null)]
    Theme.table ⟨.object [("c", .object members)]⟩ "c" = entries := by decide

end Theme
end UtilityCss
