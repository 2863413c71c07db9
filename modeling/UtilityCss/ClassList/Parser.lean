import UtilityCss.Brackets
import UtilityCss.Separator
import UtilityCss.ClassList.Tree

/-!
# Reading class lists

One pass from left to right.  At each place the shape of the next expression is
decided by its first character and by what follows: a name, a bracket or a group
that is followed by the separator is a variant, and otherwise a utility, a
property or a group.  What fits no shape is kept up to the next blank as a
utility of that name, so that nothing of the source is lost; brackets that never
close reach to the end of the source and are marked.

## The bound on the recursion

Every function that recurses carries a bound on the depth of the recursion.  Two
steps are taken for at least one character, so a bound of a few times the length
of the source is never reached; `read` supplies it.
-/

namespace UtilityCss
namespace ClassList

/-- May the character be part of a name? -/
def isNameChar (c : Char) : Bool :=
  !Text.isBlank c && !Brackets.isOpening c && !Brackets.isClosing c && c != '!'

/-- The length of the name at the beginning of a text.  A name stops before the
separator. -/
def nameLength (sep : Separator) : Text → Nat
  | [] => 0
  | c :: t => if isNameChar c && !sep.startsIn (c :: t) then nameLength sep t + 1 else 0

/-- The length of the modifier at the beginning of a text: a name without slashes. -/
def modifierLength (sep : Separator) : Text → Nat
  | [] => 0
  | c :: t =>
    if isNameChar c && c != '/' && !sep.startsIn (c :: t) then modifierLength sep t + 1 else 0

namespace Head

/-- The modifier of a plain name: what follows its last slash, unless that is
nothing. -/
def ownModifier? (name : Slice) : Option Modifier :=
  match Text.cutAtLast? (· = '/') name.text with
  | some (_, []) => none
  | some (core, _) => some ⟨name.drop (core.length + 1), false, true⟩
  | none => none

/-- The modifier that follows a bracketed value, `/50` or `/[50%]`. -/
def trailing? (sep : Separator) (c : Cursor) : Option (Modifier × Cursor) :=
  match c.rest with
  | '/' :: '[' :: _ =>
    let bracket := c.advance 1
    let k := Brackets.closing bracket
    some (⟨Brackets.inner bracket k, true, k.closed⟩, bracket.advance k.length)
  | '/' :: t =>
    match modifierLength sep t with
    | 0 => none
    | n => some (⟨(c.advance 1).ahead n, false, true⟩, c.advance (n + 1))
  | _ => none

/-- The name at the cursor with what belongs to it.  A bracket after a name holds
its value, or its modifier when the name ends with a slash. -/
def read? (sep : Separator) (c : Cursor) : Option (Head × Cursor) :=
  match nameLength sep c.rest with
  | 0 => none
  | n =>
    let name := c.ahead n
    let bracket := c.advance n
    if bracket.isAt '[' then
      let k := Brackets.closing bracket
      let inner := Brackets.inner bracket k
      let after := bracket.advance k.length
      if Text.endsWith name.text ['/'] then
        some (plain (c.upTo after) (some ⟨inner, true, k.closed⟩), after)
      else
        let lead := if Text.endsWith name.text ['-'] then name.take (n - 1) else name
        match if k.closed then trailing? sep after else none with
        | some (modifier, after) => some (bracketed lead inner (some modifier) k.closed, after)
        | none => some (bracketed lead inner none k.closed, after)
    else some (plain name (ownModifier? name), bracket)

end Head

/-! ## Variants in groups

Inside a group of variants nothing may reach past the closing parenthesis.  The
place of that parenthesis is given as the number of characters from it to the end
of the source. -/

mutual

/-- The chains of variants up to the end of their group.  What is no variant is
kept up to the next blank as the name of one. -/
def chains (sep : Separator) (stop : Nat) : Nat → Cursor → List (List Variant)
  | 0, _ => []
  | fuel + 1, c =>
    let c := c.skipBlanks
    if c.rest.length ≤ stop then []
    else
      match chain sep stop fuel c with
      | ([], _) =>
        let room := c.rest.length - stop
        let n := 1 + (((c.rest.take room).drop 1).takeWhile fun ch => !Text.isBlank ch).length
        let stray := c.ahead n
        [.named stray (.plain stray none)] :: chains sep stop fuel (c.advance n)
      | (links, c) => links :: chains sep stop fuel c

/-- Adjacent variants such as `hover:focus:`. -/
def chain (sep : Separator) (stop : Nat) : Nat → Cursor → List Variant × Cursor
  | 0, c => ([], c)
  | fuel + 1, c =>
    if c.rest.length ≤ stop || c.isAtGap then ([], c)
    else
      match link? sep stop fuel c with
      | none => ([], c)
      | some (v, after) =>
        if sep.startsIn after.rest then
          let (links, c) := chain sep stop fuel (after.advance sep.text.length)
          (v :: links, c)
        else ([v], after)

/-- One variant that ends before the group does. -/
def link? (sep : Separator) (stop : Nat) : Nat → Cursor → Option (Variant × Cursor)
  | 0, _ => none
  | fuel + 1, c =>
    if c.isAt '[' then
      let k := Brackets.closing c
      let after := c.advance k.length
      if after.rest.length < stop then none
      else some (.selector (c.ahead k.length) (Brackets.inner c k), after)
    else if c.isAt '(' then
      let k := Brackets.closing c
      let after := c.advance k.length
      if !k.closed || after.rest.length < stop then none
      else
        let members := chains sep (after.rest.length + 1) fuel (c.advance 1)
        some (.group (c.ahead k.length) members, after)
    else
      match Head.read? sep c with
      | none => none
      | some (head, after) =>
        if after.rest.length < stop then none else some (.named (c.upTo after) head, after)

end

/-- The group of variants in a closed pair of parentheses. -/
def groupVariant (sep : Separator) (fuel : Nat) (c : Cursor) (k : Brackets.Closing) : Variant :=
  let after := c.advance k.length
  .group (c.ahead k.length) (chains sep (after.rest.length + 1) fuel (c.advance 1))

/-! ## Expressions -/

/-- A run of characters of no other shape, up to the next blank or, in a group, up
to the closing parenthesis. -/
def stray (inGroup : Bool) (c : Cursor) : Expr × Cursor :=
  let n := 1 + ((c.rest.drop 1).takeWhile fun ch =>
    !Text.isBlank ch && !(inGroup && ch = ')')).length
  (.utility (c.ahead n) (.plain (c.ahead n) none) false, c.advance n)

/-- Takes a mark of importance at the cursor. -/
def takeBang (c : Cursor) : Bool × Cursor :=
  if c.isAt '!' then (true, c.advance 1) else (false, c)

mutual

/-- The expressions from the cursor to the end of the source or, in a group, to its
closing parenthesis. -/
def exprs (sep : Separator) (inGroup : Bool) : Nat → Cursor → List Expr × Cursor
  | 0, c => ([], c)
  | fuel + 1, c =>
    let c := c.skipBlanks
    match expr? sep inGroup fuel c with
    | none => ([], c)
    | some (e, c) =>
      let (rest, c) := exprs sep inGroup fuel c
      (e :: rest, c)

/-- The expression at the cursor, none at the end of the source and before the
closing parenthesis of the enclosing group. -/
def expr? (sep : Separator) (inGroup : Bool) : Nat → Cursor → Option (Expr × Cursor)
  | 0, _ => none
  | fuel + 1, c =>
    match c.rest with
    | [] => none
    | ch :: t =>
      if inGroup && ch = ')' then none
      else if ch = '!' then
        match t with
        | [] => some (stray inGroup c)
        | next :: _ =>
          if next = '(' then some (paren sep inGroup true c fuel (c.advance 1))
          else if next = '[' then some (bracket sep inGroup true c fuel (c.advance 1))
          else if isNameChar next && !sep.startsIn t then
            some (name sep inGroup true c fuel (c.advance 1))
          else some (stray inGroup c)
      else if ch = '(' then some (paren sep inGroup false c fuel c)
      else if ch = '[' then some (bracket sep inGroup false c fuel c)
      else if Brackets.isOpening ch || Brackets.isClosing ch then some (stray inGroup c)
      else some (name sep inGroup false c fuel c)

/-- The expression that starts with a name: a variant when the separator follows,
otherwise a utility. -/
def name (sep : Separator) (inGroup important : Bool) (start : Cursor) :
    Nat → Cursor → Expr × Cursor
  | 0, _ => stray inGroup start
  | fuel + 1, c =>
    match Head.read? sep c with
    | none => stray inGroup start
    | some (head, after) =>
      if !important && sep.startsIn after.rest then
        applied sep inGroup start (.named (c.upTo after) head) fuel
          (after.advance sep.text.length)
      else
        let (marked, after) := takeBang after
        (.utility (start.upTo after) head (marked || important), after)

/-- The expression that starts with a parenthesis: a group of variants when the
separator follows, otherwise a group of expressions. -/
def paren (sep : Separator) (inGroup important : Bool) (start : Cursor) :
    Nat → Cursor → Expr × Cursor
  | 0, _ => stray inGroup start
  | fuel + 1, c =>
    let k := Brackets.closing c
    let after := c.advance k.length
    if !important && k.closed && sep.startsIn after.rest then
      applied sep inGroup start (groupVariant sep fuel c k) fuel
        (after.advance sep.text.length)
    else
      let (members, c) := exprs sep true fuel (c.advance 1)
      if c.isAt ')' then
        let (marked, c) := takeBang (c.advance 1)
        (.group (start.upTo c) members (marked || important) true, c)
      else (.group (start.upTo c) members important false, c)

/-- The expression that starts with a bracket: a selector when the separator
follows, otherwise a property. -/
def bracket (sep : Separator) (inGroup important : Bool) (start : Cursor) :
    Nat → Cursor → Expr × Cursor
  | 0, _ => stray inGroup start
  | fuel + 1, c =>
    let k := Brackets.closing c
    let inner := Brackets.inner c k
    let after := c.advance k.length
    if !important && k.closed && sep.startsIn after.rest then
      applied sep inGroup start (.selector (c.ahead k.length) inner) fuel
        (after.advance sep.text.length)
    else
      let (marked, after) := if k.closed then takeBang after else (false, after)
      (.property (start.upTo after) inner (marked || important) k.closed, after)

/-- A variant applied to the expression right behind its separator, or to nothing
before a blank, a closing parenthesis or the end. -/
def applied (sep : Separator) (inGroup : Bool) (start : Cursor) (v : Variant) :
    Nat → Cursor → Expr × Cursor
  | 0, c => (.span (start.upTo c) v none, c)
  | fuel + 1, c =>
    match if c.isAtGap || c.isAt ')' then none else expr? sep inGroup fuel c with
    | none => (.span (start.upTo c) v none, c)
    | some (child, c) => (.span (start.upTo c) v (some child), c)

end

/-- Reads a class list. -/
def read (sep : Separator) (source : Text) : Program where
  source := ⟨0, source⟩
  exprs := (exprs sep false (4 * source.length + 4) (.atStart source)).1

end ClassList
end UtilityCss
