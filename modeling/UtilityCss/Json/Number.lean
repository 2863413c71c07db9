import UtilityCss.Decimal.Notation
import UtilityCss.Decimal.Reading

/-!
# Numbers in JSON texts

A numeral that is a whole number of at most sixty-four bits is exact.  Every
other numeral is a double, computed the way a fast reader does it: as many
leading digits as fit sixty-four bits make an integer, that integer is made a
double, and one multiplication or division by a power of ten brings it to size.
The result can differ from the nearest double in the last place, and the texts
that numbers are shown by depend on it, so the steps are part of the format.
-/

namespace UtilityCss
namespace Json

/-- The parts of a numeral. -/
structure Numeral where
  negative : Bool
  whole : Text
  /-- The digits after the point, when there is one. -/
  places : Option Text
  /-- The sign and the digits of the exponent, when there is one. -/
  exponent : Option (Bool × Text)
  deriving DecidableEq, Repr

namespace Numeral

/-- The digits of the whole part: a single zero, or digits that do not start with
one. -/
def whole? (t : Text) : Option (Text × Text) :=
  match Decimal.spanDigits t with
  | ([], _) => none
  | ('0' :: _ :: _, _) => none
  | (digits, rest) => some (digits, rest)

/-- The point and the digits after it, if the text goes on with a point. -/
def places? : Text → Option (Option Text × Text)
  | '.' :: t =>
    match Decimal.spanDigits t with
    | ([], _) => none
    | (digits, rest) => some (some digits, rest)
  | t => some (none, t)

/-- The exponent, if the text goes on with one. -/
def exponent? : Text → Option (Option (Bool × Text) × Text)
  | [] => some (none, [])
  | c :: t =>
    if c = 'e' || c = 'E' then
      let (negative, t) : Bool × Text :=
        match t with
        | '-' :: t => (true, t)
        | '+' :: t => (false, t)
        | t => (false, t)
      match Decimal.spanDigits t with
      | ([], _) => none
      | (digits, rest) => some (some (negative, digits), rest)
    else some (none, c :: t)

/-- The numeral at the beginning of a text, and what follows it. -/
def read? (t : Text) : Option (Numeral × Text) := do
  let (negative, t) : Bool × Text :=
    match t with
    | '-' :: t => (true, t)
    | t => (false, t)
  let (whole, t) ← whole? t
  let (places, t) ← places? t
  let (exponent, t) ← exponent? t
  return (⟨negative, whole, places, exponent⟩, t)

/-- Appends digits to a significand as long as it stays below `2 ^ 64`; the digits
from the first that does not fit are left over. -/
def absorb (significand : Nat) : Text → Nat × Text
  | [] => (significand, [])
  | c :: t =>
    let next := significand * 10 + (c.toNat - '0'.toNat)
    if next < Nat.pow 2 64 then absorb next t else (significand, c :: t)

/-- The power of ten `10 ^ n` as a double. -/
def power (n : Nat) : Float := Float.ofScientific 1 false n

/-- Brings a double to size by a power of ten, none when it overflows.  Below the
smallest power a division by `10 ^ 308` comes first, as often as needed; after
three of them nothing is left of a significand of sixty-four bits. -/
def scale : Nat → Float → Int → Option Float
  | 0, x, _ => some x
  | fuel + 1, x, exponent =>
    if exponent.natAbs ≤ 308 then
      if 0 ≤ exponent then
        let y := x * power exponent.natAbs
        if y.isInf then none else some y
      else some (x / power exponent.natAbs)
    else if x == 0 then some x
    else if 0 ≤ exponent then none
    else scale fuel (x / power 308) (exponent + 308)

/-- The double of a numeral, none when it overflows.  An exponent of more than
thirty-one bits overflows, unless it makes the number smaller or the number is
zero. -/
def float? (n : Numeral) : Option Float :=
  let (significand, left) := absorb 0 n.whole
  let places := n.places.getD []
  let (significand, unread) := absorb significand places
  let exponent : Int := left.length - ((places.length - unread.length : Nat) : Int)
  let sign (x : Float) : Float := if n.negative then -x else x
  match n.exponent with
  | none => (scale 8 significand.toUInt64.toFloat exponent).map sign
  | some (down, digits) =>
    let e : Int := Text.toNat digits
    if Nat.pow 2 31 ≤ e then if significand ≠ 0 ∧ !down then none else some (sign 0)
    else
      (scale 8 significand.toUInt64.toFloat (if down then exponent - e else exponent + e)).map sign

/-- The text a numeral is shown by, none when it overflows. -/
def text? (n : Numeral) : Option Text :=
  let value := Text.toNat n.whole
  let exact := n.places.isNone && n.exponent.isNone &&
    if n.negative then value ≠ 0 && value ≤ Nat.pow 2 63 else value < Nat.pow 2 64
  if exact then some (Text.ofInt (if n.negative then -(value : Int) else value))
  else n.float?.map fun x => (Binary.ofFloat x).dataText

end Numeral
end Json
end UtilityCss
