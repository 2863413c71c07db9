import UtilityCss.Json.Data
import UtilityCss.Style.Tree

/-!
# Style trees as data

A style tree is an object whose members are texts, lists of texts and objects.
Reading is more lenient than writing: numbers and truth values are declarations
by their text, absent members are passed over, and of a list the items that have
a text are kept.
-/

namespace UtilityCss
namespace StyleTree

/-- The text of a value that can be a declaration. -/
def scalarText? : Data → Option Text
  | .text value => some value
  | .number text => some text
  | .bool value => some (if value then "true" else "false")
  | _ => none

mutual

/-- The tree of the members of an object. -/
def ofMembers : List (Text × Data) → StyleTree
  | [] => []
  | (key, value) :: rest =>
    match ofValue? value with
    | some value => (key, value) :: ofMembers rest
    | none => ofMembers rest

/-- The value of a member, none when it is absent. -/
def ofValue? : Data → Option StyleValue
  | .null => none
  | .object members => some (.tree (ofMembers members))
  | .list items => some (.list (items.filterMap scalarText?))
  | value => (scalarText? value).map .scalar

end

/-- The tree of an object, none for any other value. -/
def ofData? : Data → Option StyleTree
  | .object members => some (ofMembers members)
  | _ => none

mutual

/-- The members of the object that a tree is. -/
def toMembers : List (Text × StyleValue) → List (Text × Data)
  | [] => []
  | (key, value) :: rest => (key, ofStyle value) :: toMembers rest

/-- The data that a value of a tree is. -/
def ofStyle : StyleValue → Data
  | .scalar text => .text text
  | .list items => .list (items.map .text)
  | .tree entries => .object (toMembers entries)

end

/-- The object that a tree is. -/
def toData (tree : StyleTree) : Data := .object (toMembers tree)

end StyleTree
end UtilityCss
