import UtilityCss.Split
import UtilityCss.Text.Alphanumeric
import UtilityCss.Style.Key

/-!
# The classes of selectors

A style tree registers a utility for every class in its selectors.  A class may
stand anywhere at the top level of a selector; the rest of the selector, with `&`
in the place of the class, and the at-rules and selectors without classes around
it are the context in which the utility's declarations are nested.
-/

namespace UtilityCss
namespace Selector

/-- The name of a class, given the text after its dot, and how many characters it
takes up.  A backslash takes the next character into the name. -/
def className : Text → Text × Nat
  | [] => ([], 0)
  | '\x5c' :: c :: t =>
    let (name, n) := className t
    (c :: name, n + 2)
  | c :: t =>
    if c != '\x5c' && (Text.isAlphanumeric c || c = '-' || c = '_' || 0x80 ≤ c.toNat) then
      let (name, n) := className t
      (c :: name, n + 1)
    else ([], 0)

/-- A class in a selector. -/
structure Found where
  name : Text
  /-- The selector with `&` in the place of the class. -/
  rest : Text
  deriving DecidableEq, Repr

/-- The classes of a selector from a place on: after characters that are skipped, at
a depth of brackets and perhaps inside a quote, with the characters behind. -/
def classesFrom : Nat → Nat → Option Char → Text → Text → List Found
  | _, _, _, _, [] => []
  | skip + 1, depth, quote, before, c :: t => classesFrom skip depth quote (c :: before) t
  | 0, depth, some q, before, c :: t =>
    if c = '\x5c' then classesFrom 1 depth (some q) (c :: before) t
    else classesFrom 0 depth (if c = q then none else some q) (c :: before) t
  | 0, depth, none, before, c :: t =>
    if Brackets.isQuote c then classesFrom 0 depth (some c) (c :: before) t
    else if c = '(' || c = '[' then classesFrom 0 (depth + 1) none (c :: before) t
    else if c = ')' || c = ']' then classesFrom 0 (depth - 1) none (c :: before) t
    else if c = '.' && depth = 0 then
      match className t with
      | ([], _) => classesFrom 0 depth none (c :: before) t
      | (name, n) =>
        ⟨name, before.reverse ++ '&' :: t.drop n⟩ :: classesFrom n depth none (c :: before) t
    else classesFrom 0 depth none (c :: before) t

/-- The classes in the parts of a selector between commas. -/
def classes (selector : Text) : List Found :=
  (Split.atChar ',' selector).flatMap fun part => classesFrom 0 0 none [] (Text.trim part)

/-- A selector without classes as the surroundings of what is nested in it. -/
def ancestor (selector : Text) : Text :=
  if selector.contains '&' then selector
  else Text.joinWith ", " ((Split.atChar ',' selector).map fun part => Text.trim part ++ [' ', '&'])

/-- The declarations of a class, with the levels they are nested in. -/
structure ClassBody where
  name : Text
  /-- The levels, the outermost first. -/
  context : List Text
  body : StyleTree

namespace ClassBody

/-- The name and the context as one text, which a strict registry takes only once. -/
def key (c : ClassBody) : Text := Text.joinWith [' '] (c.name :: c.context)

/-- The declarations nested in their context. -/
def nested (c : ClassBody) : StyleTree := StyleTree.nestIn c.context c.body

end ClassBody

mutual

/-- The classes of a style tree, each with its declarations; `outer` are the levels
around the tree.  Declarations that belong to no class are passed over. -/
def bodies (outer : List Text) : List (Text × StyleValue) → List ClassBody
  | [] => []
  | (key, value) :: rest => bodiesUnder outer key value ++ bodies outer rest

/-- The classes of one entry of a style tree. -/
def bodiesUnder (outer : List Text) (key : Text) : StyleValue → List ClassBody
  | .tree body =>
    if StyleTree.isAtRule key then bodies (outer ++ [key]) body
    else
      match classes key with
      | [] => bodies (outer ++ [ancestor key]) body
      | found =>
        found.map fun c =>
          ⟨c.name, if c.rest = ['&'] then outer else outer ++ [c.rest], body⟩
  | _ => []

end

end Selector
end UtilityCss
