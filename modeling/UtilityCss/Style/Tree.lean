import UtilityCss.Keyed

/-!
# Style trees

A style tree is an ordered table.  Under the name of a property it holds a
declaration --- one text, or several that are declared one after the other ---
and under a selector or an at-rule it holds the tree of what is nested there.

## Merging

`StyleTree.merge` lays one tree over another.  Nested trees under one key merge;
any other value replaces what was there and keeps its place.  The recursion is on
the tree that is laid over, which therefore comes first in `overlay`.
-/

namespace UtilityCss

/-- What a style tree holds under a key. -/
inductive StyleValue where
  | scalar (text : Text)
  | list (items : List Text)
  | tree (entries : List (Text × StyleValue))
  deriving Repr, Inhabited

/-- An ordered table of declarations and nested trees. -/
abbrev StyleTree := List (Text × StyleValue)

namespace StyleTree

mutual

/-- Equality of style trees is decidable. -/
def decEq : (a b : List (Text × StyleValue)) → Decidable (a = b)
  | [], [] => isTrue rfl
  | (k, a) :: as, (l, b) :: bs =>
    if e : k = l then
      match decEqValue a b, decEq as bs with
      | isTrue h, isTrue t => isTrue (by rw [e, h, t])
      | isFalse h, _ => isFalse (by simp [h])
      | _, isFalse t => isFalse (by simp [t])
    else isFalse (by simp [e])
  | [], _ :: _ | _ :: _, [] => isFalse (by simp)

/-- Equality of the values of style trees is decidable. -/
def decEqValue : (a b : StyleValue) → Decidable (a = b)
  | .scalar a, .scalar b =>
    if h : a = b then isTrue (by rw [h]) else isFalse (by simpa using h)
  | .list a, .list b =>
    if h : a = b then isTrue (by rw [h]) else isFalse (by simpa using h)
  | .tree a, .tree b =>
    match decEq a b with
    | isTrue h => isTrue (by rw [h])
    | isFalse h => isFalse (by simpa using h)
  | .scalar _, .list _ | .scalar _, .tree _ | .list _, .scalar _ | .list _, .tree _
  | .tree _, .scalar _ | .tree _, .list _ => isFalse (by simp)

end

instance : DecidableEq StyleValue := decEqValue

/-- The tree with one level around it. -/
def nest (key : Text) (tree : StyleTree) : StyleTree := [(key, .tree tree)]

/-- The tree inside levels, the outermost first. -/
def nestIn (levels : List Text) (tree : StyleTree) : StyleTree := levels.foldr nest tree

mutual

/-- Lays a tree over `base`. -/
def overlay : List (Text × StyleValue) → StyleTree → StyleTree
  | [], base => base
  | (key, value) :: rest, base =>
    overlay rest <|
      match base.lookup key with
      | some previous => Keyed.put key (overlayValue value previous) base
      | none => base ++ [(key, value)]

/-- Lays a value over the one that was there. -/
def overlayValue : StyleValue → StyleValue → StyleValue
  | .tree incoming, .tree base => .tree (overlay incoming base)
  | incoming, _ => incoming

end

/-- The deep merge of `incoming` into `base`. -/
def merge (base incoming : StyleTree) : StyleTree := overlay incoming base

mutual

/-- Applies a function to every text of a tree. -/
def mapScalars (f : Text → Text) : List (Text × StyleValue) → StyleTree
  | [] => []
  | (key, value) :: rest => (key, mapScalarsValue f value) :: mapScalars f rest

/-- Applies a function to every text of a value. -/
def mapScalarsValue (f : Text → Text) : StyleValue → StyleValue
  | .scalar text => .scalar (f text)
  | .list items => .list (items.map f)
  | .tree entries => .tree (mapScalars f entries)

end

/-- A declaration marked important, unless it is already. -/
def importantText (t : Text) : Text :=
  if Text.endsWith t "!important" then t else t ++ " !important".toList

/-- The tree with every declaration marked important. -/
def important (tree : StyleTree) : StyleTree := mapScalars importantText tree

@[simp] theorem merge_nil (base : StyleTree) : merge base [] = base := rfl

@[simp] theorem mapScalars_nil (f : Text → Text) : mapScalars f [] = [] := rfl

/-- Applying a function to the texts leaves the keys alone. -/
theorem keys_mapScalars (f : Text → Text) (tree : StyleTree) :
    Keyed.keys (mapScalars f tree) = Keyed.keys tree := by
  induction tree with
  | nil => rfl
  | cons entry rest ih =>
    obtain ⟨k, v⟩ := entry
    simpa [mapScalars, Keyed.keys] using ih

end StyleTree
end UtilityCss
