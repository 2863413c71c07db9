import UtilityCss.Text.Blank
import UtilityCss.Json.Data

/-!
# Paths into a theme

A path names a value of a theme by the keys that lead to it, bare and with dots
between them, or in brackets: `colors.red[500]`, `spacing['2.5']`.

## Keys with dots

A key such as `2.5` is written `spacing.2.5` as well.  So a walk along the
segments of a path may join a run of them, with dots, into one key; the shortest
run that leads to a value is taken.  The walk is defined for every ending of the
path at once, from the shortest to the longest, which makes it a plain recursion
on the segments.
-/

namespace UtilityCss
namespace Path

/-- May the character be part of a bare key? -/
def isKeyChar (c : Char) : Bool :=
  c != '.' && c != '[' && c != ']' && c != '/' && !Text.isBlank c

/-- The bare key at the beginning of a text, and what follows it. -/
def bare? (t : Text) : Option (Text × Text) :=
  match t.takeWhile isKeyChar with
  | [] => none
  | key => some (key, t.dropWhile isKeyChar)

/-- A key in brackets without the blanks and the quotes around it.  The quotes need
not be of one kind. -/
def unwrap (key : Text) : Text :=
  let key := Text.trim key
  match key with
  | q :: t =>
    if q = '\x22' || q = '\x27' then
      ((Text.dropTail? ['\x27'] t) <|> (Text.dropTail? ['\x22'] t)).getD key
    else key
  | [] => key

/-- The key in brackets, given the text after the opening one, and what follows. -/
def boxed? (t : Text) : Option (Text × Text) :=
  (Text.cutAt? (· = ']') t).map fun (key, rest) => (unwrap key, rest)

/-- The segments that follow the first; the first argument bounds their number. -/
def more? : Nat → Text → Option (List Text)
  | _, [] => some []
  | 0, _ => none
  | fuel + 1, c :: t =>
    match if c = '[' then boxed? t else if c = '.' then bare? t else none with
    | some (key, rest) => (more? fuel rest).map (key :: ·)
    | none => none

/-- The segments of a path, none when the text is no path. -/
def read? (t : Text) : Option (List Text) :=
  let t := Text.trim t
  let first :=
    match t with
    | '[' :: rest => boxed? rest
    | _ => bare? t
  match first with
  | some (key, rest) => (more? rest.length rest).map (key :: ·)
  | none => none

/-- The position in a list that a segment gives, a plus sign before it allowed. -/
def index? (segment : Text) : Option Nat :=
  let digits : Text :=
    match segment with
    | '+' :: t => t
    | t => t
  if !digits.isEmpty && digits.all Char.isDigit then some (Text.toNat digits) else none

/-- Tries a run of segments as a key, and longer runs when that leads nowhere.
`ways` are the walks along what is left after the run, and after each longer one. -/
def along (members : List (Text × Data)) (key : Text) :
    List Text → List (Data → Option Data) → Option Data
  | _, [] => none
  | rest, way :: ways =>
    match (members.lookup key).bind way with
    | some found => some found
    | none =>
      match rest with
      | [] => none
      | segment :: rest => along members (key ++ '.' :: segment) rest ways

/-- The walks along each ending of a path, the whole path first. -/
def ways : List Text → List (Data → Option Data)
  | [] => [some]
  | first :: rest =>
    let further := ways rest
    let here : Data → Option Data
      | .object members => along members first rest further
      | .list items =>
        (index? first).bind fun i => items[i]?.bind fun item => further.head?.bind (· item)
      | _ => none
    here :: further

/-- The value at the end of a path. -/
def walk (d : Data) (segments : List Text) : Option Data :=
  (ways segments).head?.bind (· d)

@[simp] theorem walk_nil (d : Data) : walk d [] = some d := rfl

end Path
end UtilityCss
