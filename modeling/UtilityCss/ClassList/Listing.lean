import UtilityCss.ClassList.Tree

/-!
# Listings

A listing writes the parts of a class list one after the other, every part after
those it consists of, and lets a part refer to its own by their places in the
list.  The program itself comes last.
-/

namespace UtilityCss
namespace ClassList

/-- What a part of a listing is; other parts are given by their places. -/
inductive Shape where
  | program (exprs : List Nat)
  | group (important : Bool) (exprs : List Nat)
  | span (variant : Nat) (child : Option Nat)
  | utility (head : Head) (important : Bool)
  | property (value : Slice) (important : Bool)
  | variant (head : Head)
  | selector (value : Slice)
  | groupVariant (members : List (List Nat))
  deriving Repr

/-- A part of a listing. -/
structure Node where
  source : Slice
  closed : Bool
  shape : Shape
  deriving Repr

mutual

/-- The parts of a variant, listed from place `first` on; the variant is the last. -/
def Variant.listing (first : Nat) : Variant → List Node
  | .named source head => [⟨source, head.closed, .variant head⟩]
  | .selector source inner => [⟨source, true, .selector inner⟩]
  | .group source members =>
    let (nodes, places) := membersListing first members
    nodes ++ [⟨source, true, .groupVariant places⟩]

/-- The parts of the links of a chain, and the places of the links. -/
def chainListing (first : Nat) : List Variant → List Node × List Nat
  | [] => ([], [])
  | v :: rest =>
    let nodes := v.listing first
    let next := first + nodes.length
    let (more, places) := chainListing next rest
    (nodes ++ more, (next - 1) :: places)

/-- The parts of the chains of a group, and the places of their links. -/
def membersListing (first : Nat) : List (List Variant) → List Node × List (List Nat)
  | [] => ([], [])
  | links :: rest =>
    let (nodes, places) := chainListing first links
    let (more, others) := membersListing (first + nodes.length) rest
    (nodes ++ more, places :: others)

end

mutual

/-- The parts of an expression, listed from place `first` on; the expression is the
last. -/
def Expr.listing (first : Nat) : Expr → List Node
  | .group source members important closed =>
    let (nodes, places) := exprsListing first members
    nodes ++ [⟨source, closed, .group important places⟩]
  | .span source variant none =>
    let nodes := variant.listing first
    nodes ++ [⟨source, true, .span (first + nodes.length - 1) none⟩]
  | .span source variant (some child) =>
    let nodes := variant.listing first
    let next := first + nodes.length
    let more := child.listing next
    nodes ++ more ++ [⟨source, true, .span (next - 1) (some (next + more.length - 1))⟩]
  | .utility source head important => [⟨source, head.closed, .utility head important⟩]
  | .property source value important closed => [⟨source, closed, .property value important⟩]

/-- The parts of expressions, and the places of the expressions. -/
def exprsListing (first : Nat) : List Expr → List Node × List Nat
  | [] => ([], [])
  | e :: rest =>
    let nodes := e.listing first
    let next := first + nodes.length
    let (more, places) := exprsListing next rest
    (nodes ++ more, (next - 1) :: places)

end

/-- The parts of a class list, the program last. -/
def Program.listing (p : Program) : List Node :=
  let (nodes, places) := exprsListing 0 p.exprs
  nodes ++ [⟨p.source, true, .program places⟩]

end ClassList
end UtilityCss
