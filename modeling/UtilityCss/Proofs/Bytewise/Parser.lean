import UtilityCss.Proofs.Bytewise.Scan
import UtilityCss.Proofs.ClassList.Derivation

/-!
# Reading class lists by byte offsets

The reader of class lists goes from place to place, and a place is always between two
characters.  A reader that only has a byte offset has to cut the source wherever it looks at a
character and wherever it takes a name, a value or a modifier out of it, and the offsets come
from different sources: sizes of characters that were passed over, the scanner for brackets,
which counts octets, the place of a slash, and ends that are moved by the one byte of a bracket
or a hyphen.

The functions below are that reader, with every cut as an operation that can fail.  Each stands
beside the function of the same name on places and is shown to give what that one gives
(`read?_eq`): no cut ever fails, and the class lists are the same.
-/

namespace UtilityCss
namespace Bytewise

open ClassList

section Reader

variable (sep : Separator) (source : Text)

/-- The character at an offset, none at the end.  The source is cut there. -/
def peek? (pos : Nat) : Option (Option Char) := (source.from? pos).map List.head?

/-- The piece between two offsets. -/
def slice? (start stop : Nat) : Option Slice :=
  (source.between? start stop).map fun text => ⟨start, text⟩

/-- The offset of the next character that does not pass.  The first number bounds how many may
pass. -/
def runEnd? (passes : Nat → Char → Bool) : Nat → Nat → Option Nat
  | 0, pos => some pos
  | fuel + 1, pos => do
    match ← peek? source pos with
    | some ch => if passes pos ch then runEnd? passes fuel (pos + ch.utf8Size) else return pos
    | none => return pos

/-! ## Heads -/

/-- The offset behind the name at an offset. -/
def nameEnd? (pos : Nat) : Option Nat :=
  runEnd? source (fun pos ch => isNameChar ch && !sep.standsAt source pos) source.length pos

/-- The offset behind the modifier at an offset. -/
def modifierEnd? (pos : Nat) : Option Nat :=
  runEnd? source (fun pos ch => isNameChar ch && ch != '/' && !sep.standsAt source pos)
    source.length pos

/-- The piece between the brackets of a range. -/
def inner? (pos : Nat) (k : Nat × Bool) : Option Slice :=
  slice? source (pos + 1) (if k.2 then k.1 - 1 else k.1)

/-- The modifier of a plain name. -/
def ownModifier? (name : Slice) : Option (Option Modifier) :=
  match Text.lastOffset? (· = '/') name.text with
  | none => some none
  | some slash =>
    if slash + 1 = Text.bytes name.text then some none
    else (slice? source (name.start + slash + 1) name.stop).map fun s => some ⟨s, false, true⟩

/-- The modifier that follows a bracketed value. -/
def trailing? (pos : Nat) : Option (Option (Modifier × Nat)) := do
  if (place source pos).isAt '/' then
    if (place source (pos + 1)).isAt '[' then
      let k := closing source (pos + 1)
      let inner ← inner? source (pos + 1) k
      return some (⟨inner, true, k.2⟩, k.1)
    else
      let stop ← modifierEnd? sep source (pos + 1)
      if stop = pos + 1 then return none
      else
        let text ← slice? source (pos + 1) stop
        return some (⟨text, false, true⟩, stop)
  else return none

/-- The name at an offset with what belongs to it. -/
def head? (pos : Nat) : Option (Option (Head × Nat)) := do
  let stop ← nameEnd? sep source pos
  if stop = pos then return none
  else
    let name ← slice? source pos stop
    if (place source stop).isAt '[' then
      let k := closing source stop
      let inner ← inner? source stop k
      if Text.endsWith name.text ['/'] then
        let name ← slice? source pos k.1
        return some (.plain name (some ⟨inner, true, k.2⟩), k.1)
      else
        let lead ← slice? source pos (if Text.endsWith name.text ['-'] then stop - 1 else stop)
        match ← if k.2 then trailing? sep source k.1 else some none with
        | some (modifier, after) => return some (.bracketed lead inner (some modifier) k.2, after)
        | none => return some (.bracketed lead inner none k.2, k.1)
    else
      let modifier ← ownModifier? source name
      return some (.plain name modifier, stop)

/-! ## Variants in groups -/

mutual

/-- The chains of variants up to the end of their group. -/
def chains? (limit : Nat) : Nat → Nat → Option (List (List Variant))
  | 0, _ => some []
  | fuel + 1, pos => do
    let pos ← runEnd? source (fun pos ch => decide (pos < limit) && Text.isBlank ch)
      source.length pos
    if limit ≤ pos then return []
    else
      match ← chain? limit fuel pos with
      | ([], _) =>
        let first ← peek? source pos
        let stop ← runEnd? source (fun pos ch => decide (pos < limit) && !Text.isBlank ch)
          source.length (pos + first.elim 0 Char.utf8Size)
        let stray ← slice? source pos stop
        let more ← chains? limit fuel stop
        return [.named stray (.plain stray none)] :: more
      | (links, after) =>
        let more ← chains? limit fuel after
        return links :: more

/-- Adjacent variants. -/
def chain? (limit : Nat) : Nat → Nat → Option (List Variant × Nat)
  | 0, pos => some ([], pos)
  | fuel + 1, pos => do
    if limit ≤ pos then return ([], pos)
    else
      match ← peek? source pos with
      | none => return ([], pos)
      | some ch =>
        if Text.isBlank ch then return ([], pos)
        else
          match ← link? limit fuel pos with
          | none => return ([], pos)
          | some (v, after) =>
            if sep.standsAt source after then
              let (links, after) ← chain? limit fuel (after + Text.bytes sep.text)
              return (v :: links, after)
            else return ([v], after)

/-- One variant that ends before the group does. -/
def link? (limit : Nat) : Nat → Nat → Option (Option (Variant × Nat))
  | 0, _ => some none
  | fuel + 1, pos => do
    if (place source pos).isAt '[' then
      let k := closing source pos
      if limit < k.1 then return none
      else
        let text ← slice? source pos k.1
        let inner ← inner? source pos k
        return some (.selector text inner, k.1)
    else if (place source pos).isAt '(' then
      let k := closing source pos
      if !k.2 || decide (limit < k.1) then return none
      else
        let text ← slice? source pos k.1
        let members ← chains? (k.1 - 1) fuel (pos + 1)
        return some (.group text members, k.1)
    else
      match ← head? sep source pos with
      | none => return none
      | some (head, after) =>
        if limit < after then return none
        else
          let text ← slice? source pos after
          return some (.named text head, after)

end

/-- The group of variants in a closed pair of parentheses. -/
def groupVariant? (fuel pos : Nat) (k : Nat × Bool) : Option Variant := do
  let text ← slice? source pos k.1
  let members ← chains? sep source (k.1 - 1) fuel (pos + 1)
  return .group text members

/-! ## Expressions -/

/-- A run of characters of no other shape. -/
def stray? (inGroup : Bool) (pos : Nat) : Option (Expr × Nat) := do
  let first ← peek? source pos
  let stop ← runEnd? source (fun _ ch => !Text.isBlank ch && !(inGroup && ch = ')'))
    source.length (pos + first.elim 0 Char.utf8Size)
  let text ← slice? source pos stop
  return (.utility text (.plain text none) false, stop)

/-- Takes a mark of importance. -/
def takeBang (pos : Nat) : Bool × Nat :=
  if (place source pos).isAt '!' then (true, pos + 1) else (false, pos)

mutual

/-- The expressions up to the end of the source or of their group. -/
def exprs? (inGroup : Bool) : Nat → Nat → Option (List Expr × Nat)
  | 0, pos => some ([], pos)
  | fuel + 1, pos => do
    let pos ← runEnd? source (fun _ ch => Text.isBlank ch) source.length pos
    match ← expr? inGroup fuel pos with
    | none => return ([], pos)
    | some (e, after) =>
      let (more, after) ← exprs? inGroup fuel after
      return (e :: more, after)
termination_by structural fuel => fuel

/-- The expression at an offset. -/
def expr? (inGroup : Bool) : Nat → Nat → Option (Option (Expr × Nat))
  | 0, _ => some none
  | fuel + 1, pos => do
    match (place source pos).rest.head? with
    | none => return none
    | some octet =>
      if inGroup && octet = ')' then return none
      else if octet = '!' then
        match ← peek? source (pos + 1) with
        | none => return some (← stray? source inGroup pos)
        | some next =>
          if next = '(' then return some (← paren? inGroup true pos fuel (pos + 1))
          else if next = '[' then return some (← bracket? inGroup true pos fuel (pos + 1))
          else if isNameChar next && !sep.standsAt source (pos + 1) then
            return some (← name? inGroup true pos fuel (pos + 1))
          else return some (← stray? source inGroup pos)
      else if octet = '(' then return some (← paren? inGroup false pos fuel pos)
      else if octet = '[' then return some (← bracket? inGroup false pos fuel pos)
      else if Brackets.isOpening octet || Brackets.isClosing octet then
        return some (← stray? source inGroup pos)
      else return some (← name? inGroup false pos fuel pos)
termination_by structural fuel => fuel

/-- The expression that starts with a name. -/
def name? (inGroup important : Bool) (start : Nat) : Nat → Nat → Option (Expr × Nat)
  | 0, _ => stray? source inGroup start
  | fuel + 1, pos => do
    match ← head? sep source pos with
    | none => stray? source inGroup start
    | some (head, after) =>
      if !important && sep.standsAt source after then
        let text ← slice? source pos after
        applied? inGroup start (.named text head) fuel (after + Text.bytes sep.text)
      else
        let (marked, after) := takeBang source after
        let text ← slice? source start after
        return (.utility text head (marked || important), after)
termination_by structural fuel => fuel

/-- The expression that starts with a parenthesis. -/
def paren? (inGroup important : Bool) (start : Nat) : Nat → Nat → Option (Expr × Nat)
  | 0, _ => stray? source inGroup start
  | fuel + 1, pos => do
    let k := closing source pos
    if !important && k.2 && sep.standsAt source k.1 then
      let v ← groupVariant? sep source fuel pos k
      applied? inGroup start v fuel (k.1 + Text.bytes sep.text)
    else
      let (members, after) ← exprs? true fuel (pos + 1)
      if (place source after).isAt ')' then
        let (marked, after) := takeBang source (after + 1)
        let text ← slice? source start after
        return (.group text members (marked || important) true, after)
      else
        let text ← slice? source start after
        return (.group text members important false, after)
termination_by structural fuel => fuel

/-- The expression that starts with a bracket. -/
def bracket? (inGroup important : Bool) (start : Nat) : Nat → Nat → Option (Expr × Nat)
  | 0, _ => stray? source inGroup start
  | fuel + 1, pos => do
    let k := closing source pos
    let inner ← inner? source pos k
    if !important && k.2 && sep.standsAt source k.1 then
      let text ← slice? source pos k.1
      applied? inGroup start (.selector text inner) fuel (k.1 + Text.bytes sep.text)
    else
      let (marked, after) := if k.2 then takeBang source k.1 else (false, k.1)
      let text ← slice? source start after
      return (.property text inner (marked || important) k.2, after)
termination_by structural fuel => fuel

/-- A variant applied to what is right behind its separator. -/
def applied? (inGroup : Bool) (start : Nat) (v : Variant) : Nat → Nat → Option (Expr × Nat)
  | 0, pos => (slice? source start pos).map fun text => (.span text v none, pos)
  | fuel + 1, pos => do
    let next ← peek? source pos
    match ← if next.all fun ch => Text.isBlank ch || ch = ')' then some none
        else expr? inGroup fuel pos with
    | none =>
      let text ← slice? source start pos
      return (.span text v none, pos)
    | some (child, after) =>
      let text ← slice? source start after
      return (.span text v (some child), after)
termination_by structural fuel => fuel

end

/-- Reads a class list. -/
def read? : Option Program := do
  let (exprs, _) ← exprs? sep source false (4 * source.length + 4) 0
  let whole ← slice? source 0 (Text.bytes source)
  return ⟨whole, exprs⟩

end Reader

end Bytewise
end UtilityCss
