import UtilityCss.Theme.Calls

/-!
# What is written in brackets

A class list cannot hold blanks, so inside brackets an underscore stands for one;
an underscore that is meant as such has a backslash before it.  The argument of
`url(` keeps its underscores.  In a value, theme calls are replaced first, and
binary signs of arithmetic get spaces last.
-/

namespace UtilityCss
namespace Bracketed

/-- The length of a call at the beginning of a text, up to the parenthesis that
closes it, or of the whole text. -/
def callLength : Nat → Text → Nat
  | _, [] => 0
  | depth, c :: t =>
    if c = '(' then callLength (depth + 1) t + 1
    else if c = ')' then if depth ≤ 1 then 1 else callLength (depth - 1) t + 1
    else callLength depth t + 1

/-- Replaces underscores by blanks after so many characters that are kept. -/
def spaceAfter : Nat → Text → Text
  | _, [] => []
  | kept + 1, c :: t => c :: spaceAfter kept t
  | 0, '\x5c' :: '_' :: t => '_' :: spaceAfter 0 t
  | 0, c :: t =>
    if Text.startsWith (c :: t) "url(" then c :: spaceAfter (callLength 0 (c :: t) - 1) t
    else (if c = '_' then ' ' else c) :: spaceAfter 0 t

/-- The text with underscores read as blanks. -/
def spaced (t : Text) : Text := spaceAfter 0 t

/-- The value that a bracketed text stands for. -/
def value (theme : Theme) (raw : Text) : Text :=
  Value.spaceMath (spaced (theme.renderCalls raw))

/-- The selector that a bracketed text stands for.  It has to mention its parent or
be an at-rule. -/
def selector? (raw : Text) : Option Text :=
  let selector := spaced (Text.trim raw)
  if selector.contains '&' || Text.startsWith selector ['@'] then some selector else none

/-- Is the text the name of a property: at most two hyphens, a letter, and then
letters, digits, hyphens and underscores? -/
def isPropertyName (name : Text) : Bool :=
  let body := name.dropWhile (· = '-')
  name.length - body.length ≤ 2 && Text.startsWithChar body Char.isAlpha
    && body.all fun c => c.isAlphanum || c = '-' || c = '_'

/-- The property and the value of a bracketed declaration. -/
def declaration? (raw : Text) : Option (Text × Text) :=
  match Split.atChar ':' raw with
  | head :: _ :: _ =>
    let property := Text.trim head
    let value := Text.trim (raw.drop (head.length + 1))
    if !value.isEmpty && isPropertyName property then some (property, value) else none
  | _ => none

end Bracketed
end UtilityCss
