import UtilityCss.Text.Basic

/-!
# Reading a number

A number is an optional sign, digits with an optional point among or around
them, and an optional exponent; the three spellings of infinity and not-a-number
are numbers as well, in letters of any case.  The nearest double is its value,
overflow going to infinity.
-/

namespace UtilityCss
namespace Decimal

/-- Splits the longest run of decimal digits off a text. -/
def spanDigits (t : Text) : Text × Text := (t.takeWhile Char.isDigit, t.dropWhile Char.isDigit)

/-- Nothing is lost when the digits are split off. -/
theorem spanDigits_append (t : Text) : (spanDigits t).1 ++ (spanDigits t).2 = t :=
  List.takeWhile_append_dropWhile

/-- The double nearest to `digits * 10 ^ exponent`.  Exponents far outside the
range of doubles are settled without computing the power. -/
def toFloat (digits : Text) (exponent : Int) : Float :=
  let significant := digits.dropWhile (· = '0')
  let magnitude := (significant.length : Int) + exponent
  if significant.isEmpty then 0
  else if 310 < magnitude then 1 / 0
  else if magnitude < -330 then 0
  else
    match exponent with
    | .ofNat e => Float.ofScientific (Text.toNat significant) false e
    | .negSucc e => Float.ofScientific (Text.toNat significant) true (e + 1)

/-- The exponent part at the beginning of a text, if any, as its value and what
follows.  A letter `e` without digits is not read as a number at all. -/
def exponent? : Text → Option (Int × Text)
  | [] => some (0, [])
  | c :: t =>
    if c = 'e' || c = 'E' then
      let (negative, t) : Bool × Text :=
        match t with
        | '-' :: t => (true, t)
        | '+' :: t => (false, t)
        | t => (false, t)
      let (digits, rest) := spanDigits t
      if digits.isEmpty then none
      else
        let n : Int := Text.toNat digits
        some (if negative then -n else n, rest)
    else some (0, c :: t)

/-- The value of a number without its sign. -/
def magnitude? (t : Text) : Option Float :=
  let lower := Text.toLower t
  if lower = "inf" || lower = "infinity" then some (1 / 0)
  else if lower = "nan" then some (0 / 0)
  else
    let (whole, t) := spanDigits t
    let (places, t) : Text × Text :=
      match t with
      | '.' :: t => spanDigits t
      | t => ([], t)
    if whole.isEmpty && places.isEmpty then none
    else
      match exponent? t with
      | some (exponent, []) => some (toFloat (whole ++ places) (exponent - places.length))
      | _ => none

/-- The value of a text that is a number as a whole. -/
def read? : Text → Option Float
  | '-' :: t => (magnitude? t).map fun x => -x
  | '+' :: t => magnitude? t
  | t => magnitude? t

end Decimal
end UtilityCss
