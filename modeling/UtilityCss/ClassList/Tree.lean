import UtilityCss.Source

/-!
# Class lists

A class list is a sequence of expressions.  An expression is a utility, a
bracketed property, a group of expressions, or a variant applied to an
expression; a variant is a name, a bracketed selector, or a group of chains of
variants.  Utilities and named variants are written alike, so both hold a `Head`.

Every part carries the slice of the source it was read from.  Whatever can run
off the end of the source says whether it was closed; variants need no such mark
of their own, because what follows a variant, its separator, closes it.
-/

namespace UtilityCss
namespace ClassList

/-- A modifier: what follows the slash after a name. -/
structure Modifier where
  /-- The text without the slash and without brackets. -/
  slice : Slice
  /-- Is it written in brackets? -/
  wrapped : Bool
  closed : Bool
  deriving DecidableEq, Repr

namespace Modifier

/-- How many characters the modifier takes up at the end of a name, its slash and
its brackets included. -/
def width (m : Modifier) : Nat :=
  m.slice.text.length + if m.wrapped then if m.closed then 3 else 2 else 1

end Modifier

/-- A name with what belongs to it, before it is known to be a utility or a
variant. -/
inductive Head where
  /-- A plain name; `name` covers the modifier too. -/
  | plain (name : Slice) (modifier : Option Modifier)
  /-- A name, a bracketed value and perhaps a modifier. -/
  | bracketed (lead value : Slice) (modifier : Option Modifier) (closed : Bool)
  deriving DecidableEq, Repr

namespace Head

/-- The modifier, if there is one. -/
def modifier : Head → Option Modifier
  | plain _ modifier => modifier
  | bracketed _ _ modifier _ => modifier

/-- Is every bracket closed? -/
def closed (h : Head) : Bool :=
  (h.modifier.all Modifier.closed) &&
    match h with
    | plain .. => true
    | bracketed _ _ _ closed => closed

end Head

/-- A variant, without the separator that follows it. -/
inductive Variant where
  | named (source : Slice) (head : Head)
  /-- `[selector]`. -/
  | selector (source inner : Slice)
  /-- `(a: b:c:)`, a group of chains. -/
  | group (source : Slice) (members : List (List Variant))
  deriving Repr

namespace Variant

/-- The slice the variant was read from. -/
def source : Variant → Slice
  | named source _ => source
  | selector source _ => source
  | group source _ => source

/-- Is every bracket of the variant's own closed? -/
def closed : Variant → Bool
  | named _ head => head.closed
  | _ => true

end Variant

/-- An expression of a class list. -/
inductive Expr where
  /-- `(a b c)`. -/
  | group (source : Slice) (members : List Expr) (important closed : Bool)
  /-- A variant applied to an expression, or to nothing. -/
  | span (source : Slice) (variant : Variant) (child : Option Expr)
  | utility (source : Slice) (head : Head) (important : Bool)
  /-- `[property:value]`. -/
  | property (source value : Slice) (important closed : Bool)
  deriving Repr

namespace Expr

/-- The slice the expression was read from. -/
def source : Expr → Slice
  | group source .. => source
  | span source .. => source
  | utility source .. => source
  | property source .. => source

/-- Is every bracket of the expression's own closed? -/
def closed : Expr → Bool
  | group _ _ _ closed => closed
  | span .. => true
  | utility _ head _ => head.closed
  | property _ _ _ closed => closed

end Expr

/-- A class list as it was read. -/
structure Program where
  source : Slice
  exprs : List Expr
  deriving Repr

end ClassList
end UtilityCss
