import UtilityCss.Text.Blank
import UtilityCss.Style.Key

/-!
# Wrappers

A variant puts levels around a style tree: for each of its templates the levels
that the template opens, the results merged.  A wrapper is the composition of
variants, the outermost first.

A group of variants whose members each add one plain selector adds one level with
all the selectors.  Whether a member is of that form is found out by wrapping a
marker and looking at the result.
-/

namespace UtilityCss

/-- The part of a wrapper that one variant contributes. -/
structure Wrapping where
  /-- For each template its levels, the outermost first. -/
  templates : List (List Text)
  /-- What is done to the tree before it is wrapped. -/
  posts : List (StyleTree → StyleTree)

namespace Wrapping

/-- The levels of a template, at most so many. -/
def levelsWithin : Nat → Text → List Text
  | 0, _ => []
  | fuel + 1, t =>
    let t := Text.trim t
    match Text.cutAt? (· = '\x7b') t with
    | none => if t.isEmpty then [] else [t]
    | some (head, inner) =>
      let head := Text.trim head
      let inner :=
        match Text.cutAtLast? (· = '\x7d') inner with
        | some (inner, _) => inner
        | none => inner
      if head.isEmpty then levelsWithin fuel inner else head :: levelsWithin fuel inner

/-- The levels of a template, the outermost first: what stands before each opening
brace, and inside the innermost braces. -/
def levels (template : Text) : List Text := levelsWithin (template.length + 1) template

/-- The contribution of a variant with these templates. -/
def ofTemplates (templates : List Text) (post : Option (StyleTree → StyleTree)) : Wrapping :=
  ⟨templates.map levels, post.toList⟩

/-- The tree inside the levels of each template, merged. -/
def wrap (w : Wrapping) (tree : StyleTree) : StyleTree :=
  w.templates.foldl (fun out levels => StyleTree.merge out (StyleTree.nestIn levels tree)) []

/-- The tree changed by the variant and wrapped. -/
def apply (w : Wrapping) (tree : StyleTree) : StyleTree :=
  w.wrap (w.posts.foldl (fun tree post => post tree) tree)

end Wrapping

/-- A composition of variants, the outermost first. -/
structure Wrapper where
  layers : List Wrapping

namespace Wrapper

/-- The wrapper that leaves trees as they are. -/
def identity : Wrapper := ⟨[]⟩

/-- Is the wrapper made of no variant? -/
def isIdentity (w : Wrapper) : Bool := w.layers.isEmpty

/-- The wrapper of one variant. -/
def single (w : Wrapping) : Wrapper := ⟨[w]⟩

/-- The wrapper with another one inside. -/
def around (outer inner : Wrapper) : Wrapper := ⟨outer.layers ++ inner.layers⟩

/-- The tree wrapped; there is nothing to wrap in an empty one. -/
def apply (w : Wrapper) (tree : StyleTree) : StyleTree :=
  if tree.isEmpty then tree else w.layers.foldr Wrapping.apply tree

/-- A tree that no utility makes. -/
def marker : StyleTree := [("--marker", .scalar ['\x00'])]

/-- The selector that a wrapper adds when one selector is all that it adds. -/
def plainSelector? (w : Wrapper) : Option Text :=
  match w.layers.foldr Wrapping.wrap marker with
  | [(key, .tree inner)] =>
    if inner = marker && !StyleTree.isAtRule key then some key else none
  | _ => none

/-- The wrapper of a group of variants: one level with all the selectors when every
member only adds a selector, otherwise the members inside each other. -/
def group (members : List Wrapper) : Wrapper :=
  match members.mapM plainSelector? with
  | some (first :: second :: rest) =>
    single
      { templates := [[Text.joinWith ", " (first :: second :: rest)]]
        posts := (members.flatMap Wrapper.layers).flatMap Wrapping.posts }
  | _ => members.foldl Wrapper.around identity

@[simp] theorem apply_nil (w : Wrapper) : w.apply [] = [] := rfl

@[simp] theorem apply_identity (tree : StyleTree) : identity.apply tree = tree := by
  unfold apply identity
  split <;> simp

end Wrapper
end UtilityCss
