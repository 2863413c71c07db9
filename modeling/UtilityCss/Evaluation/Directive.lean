import UtilityCss.Evaluation.Variant

/-!
# Directives in style trees

A registered style tree may hold directives.  `@apply` stands for the styles of a
class list, given as its value or as the rest of its key; `@screen` puts its body
into the variant of a screen; and theme calls in declarations stand for their
values.  Expanding a tree replaces them where they stand and leaves everything
else as it is.

How a class list is applied is a parameter, because applying evaluates, and
evaluating expands.
-/

namespace UtilityCss
namespace Directive

/-- The class list of an entry that applies one. -/
def applied? (key : Text) (value : StyleValue) : Option Text :=
  match Text.dropLead? "@apply" key with
  | none => none
  | some [] =>
    match value with
    | .scalar classes => some classes
    | .list items => some (Text.joinWith [' '] items)
    | .tree _ => none
  | some (c :: rest) => if Text.isBlank c then some (Text.trim (c :: rest)) else none

/-- The screen of an entry that is nested in one. -/
def screen? (key : Text) : Option Text := (Text.dropLead? "@screen " key).map Text.trim

mutual

/-- Does the tree hold something to expand? -/
def isNeeded : List (Text × StyleValue) → Bool
  | [] => false
  | (key, value) :: rest =>
    Text.startsWith key "@apply" || Text.startsWith key "@screen " || isNeededIn value
      || isNeeded rest

/-- Does the value hold something to expand? -/
def isNeededIn : StyleValue → Bool
  | .tree entries => isNeeded entries
  | .scalar text => Text.includes text "theme("
  | .list _ => false

end

variable (env : Environment) (apply : Text → Report StyleTree)

mutual

/-- Expands entries one after the other into `out`. -/
def expandEntries : List (Text × StyleValue) → StyleTree → Report StyleTree
  | [], out => return out
  | (key, value) :: rest, out => do expandEntries rest (← expandEntry key value out)

/-- Expands one entry into `out`. -/
def expandEntry (key : Text) : StyleValue → StyleTree → Report StyleTree
  | .scalar text, out =>
    match applied? key (.scalar text) with
    | some classes => return StyleTree.merge out (← apply classes)
    | none =>
      if (screen? key).isSome then return out
      else return Keyed.put key (.scalar (env.theme.renderCalls text)) out
  | .list items, out =>
    match applied? key (.list items) with
    | some classes => return StyleTree.merge out (← apply classes)
    | none =>
      if (screen? key).isSome then return out else return Keyed.put key (.list items) out
  | .tree body, out =>
    match applied? key (.tree body) with
    | some classes => return StyleTree.merge out (← apply classes)
    | none => do
      let inner ← if isNeeded body then expandEntries body [] else pure body
      match screen? key with
      | none => return StyleTree.merge out (StyleTree.nest key inner)
      | some name =>
        match env.variant name none with
        | .ok found => return StyleTree.merge out (found.wrapper.apply inner)
        | .error _ => return out

end

/-- The tree with its directives expanded. -/
def expand (tree : StyleTree) : Report StyleTree :=
  if isNeeded tree then expandEntries env apply tree [] else return tree

end Directive
end UtilityCss
