import UtilityCss.Source

/-!
# Where a bracket closes

From an opening bracket the scanner reads to the place where the nesting depth is
back at zero.  The three kinds of brackets count alike.  A backslash takes the
next character with it, quoted strings and comments hide what they hold, and
inside the argument of `url(` nothing is a comment, so that the slashes of an
address do not swallow the rest of the line.

The scan is a recursion on the text ahead; besides the mode and the depth it
carries the depth of the enclosing `url` argument, if any, and the characters
behind it.
-/

namespace UtilityCss
namespace Brackets

/-- What the scanner is inside of. -/
inductive Mode where
  | code
  | quoted (quote : Char)
  | lineComment
  | blockComment
  deriving DecidableEq, Repr

/-- Is the character an opening bracket? -/
def isOpening (c : Char) : Bool := c = '(' || c = '[' || c = '\x7b'

/-- Is the character a closing bracket? -/
def isClosing (c : Char) : Bool := c = ')' || c = ']' || c = '\x7d'

/-- Is the character a quote? -/
def isQuote (c : Char) : Bool := c = '\x22' || c = '\x27'

/-- Do the characters just behind spell `url`, in any case? -/
def afterUrl : Text → Bool
  | l :: r :: u :: _ => u.toLower = 'u' && r.toLower = 'r' && l.toLower = 'l'
  | _ => false

/-- The number of characters up to and including the one at which the depth is
back at zero, none when the text ends before. -/
def reach : Mode → Nat → Option Nat → Text → Text → Option Nat
  | _, _, _, _, [] => none
  | .lineComment, depth, url, before, c :: t =>
    (reach (if c = '\n' then .code else .lineComment) depth url (c :: before) t).map (· + 1)
  | .blockComment, depth, url, before, '*' :: '/' :: t =>
    (reach .code depth url ('/' :: '*' :: before) t).map (· + 2)
  | .blockComment, depth, url, before, c :: t =>
    (reach .blockComment depth url (c :: before) t).map (· + 1)
  | .quoted quote, depth, url, before, '\x5c' :: c :: t =>
    (reach (.quoted quote) depth url (c :: '\x5c' :: before) t).map (· + 2)
  | .quoted quote, depth, url, before, c :: t =>
    (reach (if c = quote then .code else .quoted quote) depth url (c :: before) t).map (· + 1)
  | .code, depth, url, before, '\x5c' :: c :: t =>
    (reach .code depth url (c :: '\x5c' :: before) t).map (· + 2)
  | .code, depth, none, before, '/' :: '*' :: t =>
    (reach .blockComment depth none ('*' :: '/' :: before) t).map (· + 2)
  | .code, depth, none, before, '/' :: '/' :: t =>
    (reach .lineComment depth none ('/' :: '/' :: before) t).map (· + 2)
  | .code, depth, url, before, c :: t =>
    if isQuote c then (reach (.quoted c) depth url (c :: before) t).map (· + 1)
    else if isOpening c then
      let url := if c = '(' && url.isNone && afterUrl before then some (depth + 1) else url
      (reach .code (depth + 1) url (c :: before) t).map (· + 1)
    else if isClosing c then
      if depth ≤ 1 then some 1
      else
        let url := if url = some depth then none else url
        (reach .code (depth - 1) url (c :: before) t).map (· + 1)
    else (reach .code depth url (c :: before) t).map (· + 1)

/-- How far a bracketed range extends. -/
structure Closing where
  /-- The number of characters, the brackets included. -/
  length : Nat
  /-- Is there a closing bracket, or did the source end first? -/
  closed : Bool
  deriving DecidableEq, Repr

/-- The extent of the range that starts at the cursor. -/
def closing (c : Cursor) : Closing :=
  match reach .code 0 none c.before c.rest with
  | some length => ⟨length, true⟩
  | none => ⟨c.rest.length, false⟩

/-- The number of characters between the brackets. -/
def Closing.inner (k : Closing) : Nat := if k.closed then k.length - 2 else k.length - 1

/-- The text between the brackets of the range at the cursor. -/
def inner (c : Cursor) (k : Closing) : Slice := (c.advance 1).ahead k.inner

/-- The place so many bytes further on.  An offset inside a character counts as the
place after it: no byte of such a character means anything to the scanner. -/
def seek : Nat → Text → Text → Cursor
  | _, before, [] => ⟨before, []⟩
  | 0, before, c :: t => ⟨before, c :: t⟩
  | n + 1, before, c :: t => seek (n + 1 - c.utf8Size) (c :: before) t

/-- The byte offset at which the range that starts at an offset ends, and whether
it is closed. -/
def closingAt (source : Text) (offset : Nat) : Nat × Bool :=
  let c := seek offset [] source
  let k := closing c
  ((c.advance k.length).offset, k.closed)

end Brackets
end UtilityCss
