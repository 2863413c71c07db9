import UtilityCss.Json.Data
import UtilityCss.Json.Number

/-!
# Reading JSON texts

Reading goes in two steps.  `Document.read?` accepts everything that is JSON by
its grammar.  What the grammar allows and data cannot hold --- a number too large,
half of a surrogate pair --- leaves a hole in the document, and only asking for
the value with `Document.data?` fails there.  A reader that is interested in a
few members of an object can so pass over the others whatever they hold.

The nesting that `data?` follows is limited by its first argument.
-/

namespace UtilityCss
namespace Json

/-- JSON by the grammar, with holes where the value cannot be represented. -/
inductive Document where
  | null
  | bool (value : Bool)
  | number (text : Option Text)
  | text (value : Option Text)
  | list (items : List Document)
  | object (members : List (Option Text × Document))
  deriving Repr, Inhabited

/-! ## Strings -/

/-- A piece of a string: a character as it stands or from an escape, or a code
unit given by its number. -/
inductive Piece where
  | char (c : Char)
  | unit (n : Nat)
  deriving DecidableEq, Repr

/-- The value of a hexadecimal digit. -/
def hexDigit? (c : Char) : Option Nat :=
  if c.isDigit then some (c.toNat - '0'.toNat)
  else if 'a' ≤ c ∧ c ≤ 'f' then some (c.toNat - 'a'.toNat + 10)
  else if 'A' ≤ c ∧ c ≤ 'F' then some (c.toNat - 'A'.toNat + 10)
  else none

/-- The value of four hexadecimal digits. -/
def hexUnit? (a b c d : Char) : Option Nat := do
  return ((← hexDigit? a) * 16 + (← hexDigit? b)) * 256 + (← hexDigit? c) * 16 + (← hexDigit? d)

/-- The character that an escape of one letter stands for. -/
def escapeOf? (c : Char) : Option Char :=
  if c = '\x22' || c = '\x5c' || c = '/' then some c
  else if c = 'b' then some '\x08'
  else if c = 'f' then some '\x0c'
  else if c = 'n' then some '\n'
  else if c = 'r' then some '\r'
  else if c = 't' then some '\t'
  else none

/-- The pieces of a string up to its closing quote, and what follows the quote. -/
def pieces? : Text → Option (List Piece × Text)
  | [] => none
  | '\x22' :: t => some ([], t)
  | '\x5c' :: 'u' :: a :: b :: c :: d :: t => do
    let n ← hexUnit? a b c d
    let (rest, t) ← pieces? t
    return (.unit n :: rest, t)
  | '\x5c' :: c :: t => do
    let c ← escapeOf? c
    let (rest, t) ← pieces? t
    return (.char c :: rest, t)
  | c :: t =>
    if c.toNat < 0x20 || c = '\x5c' then none
    else do
      let (rest, t) ← pieces? t
      return (.char c :: rest, t)

/-- Is the number that of the first half of a surrogate pair? -/
def isHigh (n : Nat) : Bool := 0xd800 ≤ n && n < 0xdc00

/-- Is the number that of the second half of a surrogate pair? -/
def isLow (n : Nat) : Bool := 0xdc00 ≤ n && n < 0xe000

/-- The text the pieces spell, none when half of a surrogate pair stands alone. -/
def assemble? : List Piece → Option Text
  | [] => some []
  | .char c :: rest => (assemble? rest).map (c :: ·)
  | .unit n :: rest =>
    if isHigh n then
      match rest with
      | .unit m :: rest =>
        if isLow m then
          (assemble? rest).map (Char.ofNat (0x10000 + (n - 0xd800) * 0x400 + (m - 0xdc00)) :: ·)
        else none
      | _ => none
    else if isLow n then none
    else (assemble? rest).map (Char.ofNat n :: ·)

/-- A string after its opening quote. -/
def string? (t : Text) : Option (Option Text × Text) :=
  (pieces? t).map fun (pieces, t) => (assemble? pieces, t)

/-! ## Values -/

/-- Drops the white space that JSON allows between tokens. -/
def skip (t : Text) : Text := t.dropWhile fun c => c = ' ' || c = '\n' || c = '\t' || c = '\r'

mutual

/-- A value and what follows it.  The first argument bounds the depth of the
recursion; the length of the text is always enough. -/
def value? : Nat → Text → Option (Document × Text)
  | 0, _ => none
  | fuel + 1, t =>
    match skip t with
    | [] => none
    | '\x7b' :: t =>
      match skip t with
      | '\x7d' :: t => some (.object [], t)
      | t => (members? fuel t).map fun (members, t) => (.object members, t)
    | '[' :: t =>
      match skip t with
      | ']' :: t => some (.list [], t)
      | t => (items? fuel t).map fun (items, t) => (.list items, t)
    | '\x22' :: t => (string? t).map fun (value, t) => (.text value, t)
    | c :: t =>
      if c = '-' || c.isDigit then
        (Numeral.read? (c :: t)).map fun (numeral, t) => (.number numeral.text?, t)
      else if c = 't' then (Text.dropLead? "rue" t).map fun t => (.bool true, t)
      else if c = 'f' then (Text.dropLead? "alse" t).map fun t => (.bool false, t)
      else if c = 'n' then (Text.dropLead? "ull" t).map fun t => (.null, t)
      else none

/-- The items of a list that is not empty, and what follows its closing bracket. -/
def items? : Nat → Text → Option (List Document × Text)
  | 0, _ => none
  | fuel + 1, t => do
    let (item, t) ← value? fuel t
    match skip t with
    | ',' :: t =>
      let (rest, t) ← items? fuel t
      return (item :: rest, t)
    | ']' :: t => return ([item], t)
    | _ => none

/-- The members of an object that is not empty, and what follows its closing
brace. -/
def members? : Nat → Text → Option (List (Option Text × Document) × Text)
  | 0, _ => none
  | fuel + 1, t =>
    match skip t with
    | '\x22' :: t => do
      let (key, t) ← string? t
      match skip t with
      | ':' :: t =>
        let (value, t) ← value? fuel t
        match skip t with
        | ',' :: t =>
          let (rest, t) ← members? fuel t
          return ((key, value) :: rest, t)
        | '\x7d' :: t => return ([(key, value)], t)
        | _ => none
      | _ => none
    | _ => none

end

/-- The document a text is as a whole, none when it is not JSON. -/
def Document.read? (t : Text) : Option Document :=
  match value? (t.length + 1) t with
  | some (document, rest) => if (skip rest).isEmpty then some document else none
  | none => none

/-! ## Data -/

mutual

/-- The data of a document nested at most `levels` deep, none when it has a hole or
is nested deeper.  Of members with one key the last value counts, at the place of
the first. -/
def Document.data? : Nat → Document → Option Data
  | _, .null => some .null
  | _, .bool value => some (.bool value)
  | _, .number numeral => numeral.map .number
  | _, .text value => value.map .text
  | 0, .list _ => none
  | 0, .object _ => none
  | levels + 1, .list items => (dataItems? levels items).map .list
  | levels + 1, .object members =>
    (dataMembers? levels members).map fun members => .object (Keyed.ofList members)

/-- The data of the items of a list. -/
def Document.dataItems? : Nat → List Document → Option (List Data)
  | _, [] => some []
  | levels, item :: rest => do
    return (← Document.data? levels item) :: (← Document.dataItems? levels rest)

/-- The data of the members of an object. -/
def Document.dataMembers? : Nat → List (Option Text × Document) → Option (List (Text × Data))
  | _, [] => some []
  | levels, (key, value) :: rest => do
    return (← key, ← Document.data? levels value) :: (← Document.dataMembers? levels rest)

end

end Json
end UtilityCss
