import UtilityCss.Text.Uppercase
import UtilityCss.Style.Tree

/-!
# The keys of style trees

A key is an at-rule, a selector, a custom property or the name of a property.
Trees that leave the library have the names of properties in camel case; the
other keys, and every key of a nested tree, stay as they are.
-/

namespace UtilityCss
namespace StyleTree

/-- Is the key an at-rule? -/
def isAtRule (key : Text) : Bool := Text.startsWith key ['@']

/-- Is the key a selector or an at-rule, rather than the name of a property? -/
def isSelector (key : Text) : Bool :=
  Text.startsWithChar key (fun c => ("&.@:#*[>+~" : Text).contains c) || key.contains '&'

/-- The words of a name run together; `raised` says whether the next letter begins
a word and is made a capital. -/
def runTogether : Bool → Text → Text
  | _, [] => []
  | raised, c :: t =>
    if c = '-' then runTogether true t
    else (if raised then Text.capitals c else [c]) ++ runTogether false t

/-- A name in camel case.  A hyphen at the beginning is dropped, and begins a word
only for the vendors that are written with a capital. -/
def camelCase (key : Text) : Text :=
  match key with
  | '-' :: t => runTogether (Text.startsWith key "-webkit-" || Text.startsWith key "-moz-") t
  | _ => runTogether false key

mutual

/-- The entries of a tree with the names of properties in camel case. -/
def camelEntries : List (Text × StyleValue) → List (Text × StyleValue)
  | [] => []
  | (key, value) :: rest => camelEntry key value :: camelEntries rest

/-- An entry with the name of a property in camel case. -/
def camelEntry (key : Text) : StyleValue → Text × StyleValue
  | .tree entries => (key, .tree (Keyed.ofList (camelEntries entries)))
  | value =>
    if isSelector key || Text.startsWith key "--" then (key, value) else (camelCase key, value)

end

/-- The tree with the names of properties in camel case, at every level.  Of names
that become one the last value counts. -/
def camelize (tree : StyleTree) : StyleTree := Keyed.ofList (camelEntries tree)

end StyleTree
end UtilityCss
