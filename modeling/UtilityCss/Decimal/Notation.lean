import UtilityCss.Text.Basic
import UtilityCss.Decimal.Shortest

/-!
# How numbers are written

Two notations are in use.  CSS values take plain positional notation, never an
exponent; numbers of JSON data keep at least one place after the point and turn
to an exponent when they are very large or very small.  Both start from the
shortest digits that read back.
-/

namespace UtilityCss
namespace Decimal

/-- So many zeros. -/
def zeros (n : Nat) : Text := List.replicate n '0'

/-- Positional notation without an exponent: `1200`, `1.5`, `0.001`. -/
def positional (d : Decimal) : Text :=
  let digits := Text.ofNat d.digits
  match d.exponent with
  | .ofNat e => if d.digits = 0 then ['0'] else digits ++ zeros e
  | .negSucc e =>
    let places := e + 1
    if places < digits.length then
      digits.take (digits.length - places) ++ '.' :: digits.drop (digits.length - places)
    else '0' :: '.' :: zeros (places - digits.length) ++ digits

/-- Scientific notation: one digit, the others after a point, and the exponent with
its sign. -/
def scientific (d : Decimal) : Text :=
  let digits := Text.ofNat d.digits
  let exponent : Text :=
    match d.exponent + (digits.length - 1 : Nat) with
    | .ofNat e => '+' :: Text.ofNat e
    | e => Text.ofInt e
  match digits with
  | [] => []
  | [digit] => digit :: 'e' :: exponent
  | digit :: rest => digit :: '.' :: rest ++ 'e' :: exponent

/-- Positional with at least one place after the point as long as the point falls
at most sixteen digits to the right and four zeros to the left of the digits,
scientific beyond. -/
def withPlace (d : Decimal) : Text :=
  let point := ((Text.ofNat d.digits).length : Int) + d.exponent
  if 0 ≤ d.exponent ∧ point ≤ 16 then positional d ++ ['.', '0']
  else if -5 < point ∧ point ≤ 16 then positional d
  else scientific d

end Decimal

namespace Binary

/-- A number as CSS values show it: integers below `10 ^ 15` exactly and without a
sign on zero, all others with the fewest digits that read back, a tie going up. -/
def cssText : Binary → Text
  | .nan => "NaN"
  | .infinite negative => if negative then "-inf" else "inf"
  | .finite negative significand exponent =>
    let value := Binary.finite negative significand exponent
    let signed (t : Text) : Text := if negative then '-' :: t else t
    match value.integer? with
    | some n =>
      if n.natAbs < Nat.pow 10 15 then Text.ofInt n
      else signed (Decimal.shortest .up significand exponent).positional
    | none => signed (Decimal.shortest .up significand exponent).positional

/-- A number as JSON data shows it, with a place after the point, a tie going to
the even digit. -/
def dataText : Binary → Text
  | .finite negative significand exponent =>
    let text := (Decimal.shortest .even significand exponent).withPlace
    if negative then '-' :: text else text
  | _ => "null"

end Binary
end UtilityCss
