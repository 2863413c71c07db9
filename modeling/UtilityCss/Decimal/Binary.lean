/-!
# Floats taken apart

A finite double is exactly `significand * 2 ^ exponent`.  Every decision about
how a number is written is made on that exact value, in integers; the float
itself is only read from a text, divided, and taken apart here.
-/

namespace UtilityCss

/-- A double, taken apart into its exact value. -/
inductive Binary where
  | nan
  | infinite (negative : Bool)
  /-- The value `significand * 2 ^ exponent`, with its sign. -/
  | finite (negative : Bool) (significand : Nat) (exponent : Int)
  deriving DecidableEq, Repr

namespace Binary

/-- Reads the three fields of the sixty-four bits of a double. -/
def ofBits (bits : Nat) : Binary :=
  let negative := bits / Nat.pow 2 63 % 2 == 1
  let biased : Nat := bits / Nat.pow 2 52 % Nat.pow 2 11
  let fraction : Nat := bits % Nat.pow 2 52
  if biased = 2047 then if fraction = 0 then infinite negative else nan
  else if biased = 0 then finite negative fraction (-1074)
  else finite negative (fraction + Nat.pow 2 52) ((biased : Int) - 1075)

/-- The exact value of a float. -/
def ofFloat (x : Float) : Binary := ofBits x.toBits.toNat

/-- The integer a finite value is, when it is one. -/
def integer? : Binary → Option Int
  | finite negative significand exponent =>
    let sign (n : Nat) : Int := if negative then -n else n
    match exponent with
    | .ofNat e => some (sign (significand * Nat.pow 2 e))
    | .negSucc e =>
      let scale := Nat.pow 2 (e + 1)
      if significand % scale = 0 then some (sign (significand / scale)) else none
  | _ => none

end Binary
end UtilityCss
