import UtilityCss.Theme.Path
import UtilityCss.Value.Kind

/-!
# Themes

A theme is an object of categories.  Values are looked up by path, with a slash
and an opacity after it if the path does not lead anywhere as it is written; a
category can also be flattened into the table of its leaves, which is what the
values of a utility are looked up in.
-/

namespace UtilityCss

/-- A table of named values. -/
abbrev ValueTable := List (Text × Data)

/-- A theme, as the object of its categories. -/
structure Theme where
  root : Data
  deriving DecidableEq, Repr

namespace Theme

/-- The value at a path. -/
def get? (theme : Theme) (path : Text) : Option Data :=
  (Path.read? path).bind (Path.walk theme.root)

mutual

/-- Writes the leaves of a value into a table, under names that begin with `name`. -/
def flatten (table : ValueTable) (name : Text) : Data → ValueTable
  | .object members => flattenMembers table name members
  | value => Keyed.put name value table

/-- Writes the leaves of the members of an object into a table.  The key `DEFAULT`
adds nothing to the name. -/
def flattenMembers (table : ValueTable) (name : Text) : List (Text × Data) → ValueTable
  | [] => table
  | (key, value) :: rest =>
    let inner := if key = "DEFAULT" then name else name ++ '-' :: key
    flattenMembers (flatten table inner value) name rest

end

/-- The table of the leaves of a category, their names joined with hyphens. -/
def table (theme : Theme) (category : Text) : ValueTable :=
  match theme.root.member? category with
  | some (.object members) =>
    members.foldl (fun table entry => flatten table entry.1 entry.2) []
  | _ => []

/-- The entry of the category `opacity` under a key. -/
def opacity? (theme : Theme) (key : Text) : Option Text :=
  ((theme.root.member? "opacity").bind (·.member? key)).bind Value.entryText?

/-- The opacity of a modifier: the entry of that name, or a hundredth of a number. -/
def modifierOpacity? (theme : Theme) (modifier : Text) : Option Text :=
  theme.opacity? modifier <|> Value.percentOpacity? modifier

/-- The text between quotes of one kind; other texts as they are. -/
def unquote (t : Text) : Text :=
  (((Text.dropLead? ['\x22'] t).bind (Text.dropTail? ['\x22']))
    <|> ((Text.dropLead? ['\x27'] t).bind (Text.dropTail? ['\x27']))).getD t

/-- The text of the value at a path.  If the path leads nowhere, its last slash
sets off an opacity for the color at the path before it. -/
def resolve? (theme : Theme) (path : Text) : Option Text :=
  let path := unquote (Text.trim path)
  match theme.get? path with
  | some value => Value.entryText? value
  | none =>
    match Text.cutAtLast? (· = '/') path with
    | none => none
    | some (path, opacity) =>
      match (theme.get? (Text.trim path)).bind Value.entryText? with
      | none => none
      | some value =>
        let opacity := Text.trim opacity
        let opacity := (theme.modifierOpacity? opacity).getD opacity
        some ((Value.withOpacity? value opacity).getD value)

end Theme
end UtilityCss
