import UtilityCss.ClassList.Tree

/-!
# Outlines

The outline of a class list is its tree as a compact s-expression: the shape of
every part, its texts, a `!` on what is marked important and a `?` on what is not
closed.  It says everything about a parse except where the parts stand.
-/

namespace UtilityCss
namespace ClassList

/-- The marks that follow the name of a shape. -/
def marks (important closed : Bool) : Text :=
  (if important then ['!'] else []) ++ if closed then [] else ['?']

namespace Modifier

/-- The modifier as it is written. -/
def outline (m : Modifier) : Text :=
  if m.wrapped then '/' :: '[' :: m.slice.text ++ if m.closed then [']'] else []
  else '/' :: m.slice.text

end Modifier

namespace Head

/-- A plain name without its modifier. -/
def bare : Head → Text
  | plain name (some m) => name.text.take (name.text.length - m.width)
  | plain name none => name.text
  | bracketed lead .. => lead.text

/-- The modifier after a blank. -/
def modifierOutline (h : Head) : Text :=
  match h.modifier with
  | some m => ' ' :: m.outline
  | none => []

end Head

/-- A value in brackets, the closing one only if there is one. -/
def boxed (value : Slice) (closed : Bool) : Text :=
  '[' :: value.text ++ if closed then [']'] else []

namespace Head

/-- The outline of a head under the names of its two shapes. -/
def outline (plainShape bracketedShape : Text) (nameOf : Head → Text) (important : Bool)
    (h : Head) : Text :=
  match h with
  | plain .. =>
    '(' :: plainShape ++ marks important true ++ ' ' :: nameOf h ++ h.modifierOutline ++ [')']
  | bracketed lead value _ closed =>
    '(' :: bracketedShape ++ marks important closed ++ ' ' :: lead.text
      ++ ' ' :: boxed value closed ++ h.modifierOutline ++ [')']

/-- The name as it is written, with its modifier. -/
def written : Head → Text
  | plain name _ => name.text
  | bracketed lead .. => lead.text

end Head

mutual

/-- The outline of a variant. -/
def Variant.outline : Variant → Text
  | .named _ head => head.outline "variant" "arbitrary-variant" Head.bare false
  | .selector _ inner => "(selector ".toList ++ boxed inner true ++ [')']
  | .group _ members => "(group-variant".toList ++ membersOutline members ++ [')']

/-- The outlines of the chains of a group, each after a blank. -/
def membersOutline : List (List Variant) → Text
  | [] => []
  | [v] :: rest => ' ' :: v.outline ++ membersOutline rest
  | links :: rest => " (chain".toList ++ chainOutline links ++ ')' :: membersOutline rest

/-- The outlines of the links of a chain, each after a blank. -/
def chainOutline : List Variant → Text
  | [] => []
  | v :: rest => ' ' :: v.outline ++ chainOutline rest

end

mutual

/-- The outline of an expression. -/
def Expr.outline : Expr → Text
  | .group _ members important closed =>
    "(group".toList ++ marks important closed ++ exprsOutline members ++ [')']
  | .span _ variant none => "(span ".toList ++ variant.outline ++ [')']
  | .span _ variant (some child) =>
    "(span ".toList ++ variant.outline ++ ' ' :: child.outline ++ [')']
  | .utility _ head important => head.outline "class" "arbitrary" Head.written important
  | .property _ value important closed =>
    "(property".toList ++ marks important closed ++ ' ' :: boxed value closed ++ [')']

/-- The outlines of expressions, each after a blank. -/
def exprsOutline : List Expr → Text
  | [] => []
  | e :: rest => ' ' :: e.outline ++ exprsOutline rest

end

/-- The outline of a class list. -/
def Program.outline (p : Program) : Text :=
  "(program".toList ++ exprsOutline p.exprs ++ [')']

end ClassList
end UtilityCss
