import UtilityCss.Decimal.Reading

/-!
# Numbers with units

A dimension is a signed decimal number, perhaps with an exponent, directly
followed by a percent sign or by the letters of a unit.  The unit decides what
the number measures.
-/

namespace UtilityCss
namespace Value

/-- What the unit of a number says about it. -/
inductive UnitClass where
  | unitless
  | length
  | percentage
  | angle
  | other
  deriving DecidableEq, Repr

namespace UnitClass

/-- The name of the class. -/
def name : UnitClass → Text
  | unitless => "unitless"
  | length => "length"
  | percentage => "percentage"
  | angle => "angle"
  | other => "other"

end UnitClass

/-- The units of lengths, in small letters. -/
def lengthUnits : List Text := Text.listOf
  ["px", "rem", "em", "ex", "ch", "vw", "vh", "vmin", "vmax", "cm", "mm", "in", "pt", "pc", "q",
    "lh", "rlh", "cap", "ic", "dvw", "dvh", "svw", "svh", "lvw", "lvh", "cqw", "cqh", "cqi",
    "cqb", "cqmin", "cqmax", "vi", "vb"]

/-- The units of angles, in small letters. -/
def angleUnits : List Text := ["deg", "rad", "grad", "turn"]

/-- The class of a unit, in letters of any case. -/
def UnitClass.ofUnit (unit : Text) : UnitClass :=
  let unit := Text.toLower unit
  if unit = [] then unitless
  else if unit = ['%'] then percentage
  else if unit ∈ lengthUnits then length
  else if unit ∈ angleUnits then angle
  else other

/-- Splits an optional sign off a text. -/
def spanSign : Text → Text × Text
  | '+' :: t => (['+'], t)
  | '-' :: t => (['-'], t)
  | t => ([], t)

/-- The digits of an unsigned number, with a point after the first of them or before
them all. -/
def unsigned? (t : Text) : Option (Text × Text) :=
  let (whole, rest) := Decimal.spanDigits t
  match rest with
  | '.' :: t =>
    let (places, rest') := Decimal.spanDigits t
    if whole.isEmpty && places.isEmpty then none else some (whole ++ '.' :: places, rest')
  | _ => if whole.isEmpty then none else some (whole, rest)

/-- The exponent at the beginning of a text, empty when there is none. -/
def spanExponent (t : Text) : Text × Text :=
  match t with
  | [] => ([], t)
  | e :: u =>
    if e = 'e' || e = 'E' then
      let (sign, u) := spanSign u
      let (digits, rest) := Decimal.spanDigits u
      if digits.isEmpty then ([], t) else (e :: sign ++ digits, rest)
    else ([], t)

/-- The signed number at the beginning of a text, and what follows it. -/
def number? (t : Text) : Option (Text × Text) := do
  let (sign, t) := spanSign t
  let (digits, t) ← unsigned? t
  let (exponent, t) := spanExponent t
  return (sign ++ digits ++ exponent, t)

/-- The unit at the beginning of a text, empty when there is none. -/
def unitAt (t : Text) : Text :=
  match t with
  | '%' :: _ => ['%']
  | _ => t.takeWhile Char.isAlpha

/-- The number and the unit of a text that is a dimension as a whole. -/
def dimension? (t : Text) : Option (Text × Text) := do
  let (number, rest) ← number? t
  if unitAt rest = rest then some (number, rest) else none

/-- The class of a text that is a dimension. -/
def dimensionClass? (t : Text) : Option UnitClass :=
  (dimension? t).map fun (_, unit) => .ofUnit unit

/-- Is the text a number without a unit? -/
def isNumber (t : Text) : Bool := dimensionClass? t == some .unitless

/-- Is the text a zero without a unit?  A number so small that it is read as zero
counts as well. -/
def isZero (t : Text) : Bool :=
  match dimension? t with
  | some (number, []) =>
    match Decimal.read? number with
    | some x => x == 0
    | none => false
  | _ => false

end Value
end UtilityCss
