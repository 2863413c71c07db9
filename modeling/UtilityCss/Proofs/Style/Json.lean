import UtilityCss.Style.Json

/-!
# Style trees as objects

A style tree that is written as an object is read back as it was, with the same keys in the same
order at every level.  An object that is read is a style tree whatever its members hold, but what
cannot be declared is left out: `Data.declared` says what remains of it.  Written again, the tree is
just that, and since it is a tree already, reading and writing it once more changes nothing.
-/

namespace UtilityCss

namespace Data

/-- Is the value a text, a number or a truth value? -/
def isScalar : Data → Bool
  | .bool _ => true
  | .number _ => true
  | .text _ => true
  | _ => false

/-- Numbers and truth values as texts. -/
def textual : Data → Data
  | .bool value => .text (if value then "true" else "false")
  | .number shown => .text shown
  | d => d

mutual

/-- What can be declared of a value: no object has absent members, lists hold the texts of their
scalar items, and everything else that is no object is a text. -/
def declared : Data → Data
  | .object members => .object (declaredMembers members)
  | .list items => .list ((items.filter isScalar).map textual)
  | d => textual d

/-- What can be declared of the members of an object. -/
def declaredMembers : List (Text × Data) → List (Text × Data)
  | [] => []
  | (key, value) :: rest =>
    if value = .null then declaredMembers rest else (key, declared value) :: declaredMembers rest

end

end Data

namespace StyleTree

/-- The items of a list that have a text are those that are scalars. -/
theorem map_filterMap_scalarText? (items : List Data) :
    (items.filterMap scalarText?).map Data.text = (items.filter Data.isScalar).map Data.textual := by
  induction items with
  | nil => rfl
  | cons item rest ih =>
    cases item with
    | bool value => exact congrArg (_ :: ·) ih
    | number text => exact congrArg (_ :: ·) ih
    | text value => exact congrArg (_ :: ·) ih
    | null => exact ih
    | list items => exact ih
    | object members => exact ih

/-- A list of texts is read back. -/
theorem filterMap_scalarText?_map (items : List Text) :
    (items.map Data.text).filterMap scalarText? = items := by
  induction items with
  | nil => rfl
  | cons item rest ih => simp [scalarText?, ih]

/-! ## From trees to objects and back -/

mutual

theorem ofMembers_toMembers : ∀ tree : List (Text × StyleValue),
    ofMembers (toMembers tree) = tree
  | [] => rfl
  | (key, value) :: rest => by
    rw [toMembers, ofMembers, ofValue?_ofStyle value, ofMembers_toMembers rest]

theorem ofValue?_ofStyle : ∀ value : StyleValue, ofValue? (ofStyle value) = some value
  | .scalar text => rfl
  | .list items => by rw [ofStyle, ofValue?, filterMap_scalarText?_map]
  | .tree entries => by rw [ofStyle, ofValue?, ofMembers_toMembers entries]

end

/-! ## From objects to trees and back -/

mutual

theorem toMembers_ofMembers : ∀ members : List (Text × Data),
    toMembers (ofMembers members) = Data.declaredMembers members
  | [] => rfl
  | (key, value) :: rest => by
    have hvalue := ofStyle_ofValue? value
    rw [ofMembers, Data.declaredMembers]
    by_cases hnull : value = .null
    · rw [if_pos hnull, Option.map_eq_none_iff] at hvalue
      rw [if_pos hnull, hvalue]
      exact toMembers_ofMembers rest
    · rw [if_neg hnull, Option.map_eq_some_iff] at hvalue
      obtain ⟨style, hstyle, hdeclared⟩ := hvalue
      rw [if_neg hnull, hstyle, ← hdeclared, ← toMembers_ofMembers rest]
      rfl

/-- A value that is not absent is written as what can be declared of it. -/
theorem ofStyle_ofValue? : ∀ d : Data,
    (ofValue? d).map ofStyle = if d = .null then none else some d.declared
  | .null => rfl
  | .bool value => rfl
  | .number text => rfl
  | .text value => rfl
  | .list items => by
    rw [ofValue?, if_neg (by simp), Data.declared, ← map_filterMap_scalarText?]
    rfl
  | .object members => by
    rw [ofValue?, if_neg (by simp), Data.declared, ← toMembers_ofMembers members]
    rfl

end

theorem toData_ofMembers (members : List (Text × Data)) :
    toData (ofMembers members) = (Data.object members).declared := by
  rw [toData, toMembers_ofMembers, Data.declared]

theorem ofData?_toData (tree : StyleTree) : ofData? (toData tree) = some tree :=
  congrArg some (ofMembers_toMembers tree)

theorem isSome_ofData? (d : Data) : (ofData? d).isSome = d.isObject := by
  cases d <;> rfl

/-- **Style trees survive being written as objects.**  A tree that is written is read back, with the
same keys in the same order at every level.  Objects, and no other values, are read, and the tree of
one is written as what can be declared of it; read and written once more, this stays as it is. -/
theorem ofData?_roundtrip :
    (∀ tree, ofData? (toData tree) = some tree) ∧
    (∀ d, (ofData? d).isSome = d.isObject) ∧
    ∀ members, (ofData? (.object members)).map toData = some (Data.object members).declared ∧
      (ofData? (Data.object members).declared).map toData =
        some (Data.object members).declared := by
  refine ⟨ofData?_toData, isSome_ofData?, fun members => ?_⟩
  have hwritten : (ofData? (.object members)).map toData = some (Data.object members).declared :=
    congrArg some (toData_ofMembers members)
  refine ⟨hwritten, ?_⟩
  rw [← toData_ofMembers, ofData?_toData]
  rfl

example : ofData? (.object [("z-index", .number "10"), ("skip", .null),
      ("font-family", .list [.text "a", .null, .bool true])]) =
    some ([("z-index", .scalar "10"), ("font-family", .list ["a", "true"])] : StyleTree) := by
  decide

end StyleTree
end UtilityCss
