import UtilityCss.Decimal.Binary

/-!
# The fewest digits that read back

The decimals that are read back as a given double fill an interval around it,
bounded by the midpoints to its neighbours; the ends belong to it when the
significand is even.  Among them a number is written with the fewest digits, and
among those with the decimal nearest to the exact value.

## Searching grid by grid

For each count of digits the decimals with that many digits form a grid, and
only the two grid points next to the value can lie nearest to it.  The first
grid of which one of the two points lies in the interval gives the answer.  All
comparisons are made between integers, over one common denominator.
-/

namespace UtilityCss

/-- Which of two equally near decimals is written. -/
inductive Tie where
  /-- The one with an even last digit. -/
  | even
  /-- The larger one. -/
  | up
  deriving DecidableEq, Repr

/-- The decimal `digits * 10 ^ exponent`. -/
structure Decimal where
  digits : Nat
  exponent : Int
  deriving DecidableEq, Repr

namespace Decimal

/-- A positive rational. -/
structure Ratio where
  num : Nat
  den : Nat

/-- The value `quarters / 4 * 2 ^ exponent`. -/
def Ratio.ofQuarters (quarters : Nat) (exponent : Int) : Ratio :=
  match exponent - 2 with
  | .ofNat e => ⟨quarters * Nat.pow 2 e, 1⟩
  | .negSucc e => ⟨quarters, Nat.pow 2 (e + 1)⟩

/-- How many digits a number has. -/
def digitCount (n : Nat) : Nat := (Nat.toDigits 10 n).length

/-- The exponent `e` for which the value is at least `10 ^ (e - 1)` and less than
`10 ^ e`. -/
def Ratio.magnitude (r : Ratio) : Int :=
  if r.den ≤ r.num then digitCount (r.num / r.den)
  else 1 - (digitCount ((r.den + r.num - 1) / r.num - 1) : Int)

/-- The numerators of a value and of `x * 10 ^ k` over a common denominator. -/
def Ratio.aligned (r : Ratio) (x : Nat) (k : Int) : Nat × Nat :=
  match k with
  | .ofNat k => (r.num, x * Nat.pow 10 k * r.den)
  | .negSucc k => (r.num * Nat.pow 10 (k + 1), x * r.den)

/-- The largest `x` with `x * 10 ^ k` at most the value. -/
def Ratio.floorAt (r : Ratio) (k : Int) : Nat :=
  match k with
  | .ofNat k => r.num / (r.den * Nat.pow 10 k)
  | .negSucc k => r.num * Nat.pow 10 (k + 1) / r.den

/-- The interval of values that read back as one double. -/
structure Interval where
  low : Ratio
  value : Ratio
  high : Ratio
  /-- Do the ends belong to the interval? -/
  closed : Bool

/-- The interval of the double with this significand and exponent.  Below a power
of two the neighbour is only half as far away. -/
def Interval.ofBinary (significand : Nat) (exponent : Int) : Interval where
  low := .ofQuarters
    (4 * significand - if significand = Nat.pow 2 52 ∧ exponent ≠ -1074 then 1 else 2) exponent
  value := .ofQuarters (4 * significand) exponent
  high := .ofQuarters (4 * significand + 2) exponent
  closed := significand % 2 == 0

/-- Does `x * 10 ^ k` read back as the double? -/
def Interval.holds (i : Interval) (x : Nat) (k : Int) : Bool :=
  let (low, atLow) := i.low.aligned x k
  let (high, atHigh) := i.high.aligned x k
  if i.closed then low ≤ atLow && atHigh ≤ high else low < atLow && atHigh < high

/-- The nearer of the two grid points next to the value that read back. -/
def Interval.onGrid? (i : Interval) (tie : Tie) (k : Int) : Option Nat :=
  let x := i.value.floorAt k
  match i.holds x k, i.holds (x + 1) k with
  | false, false => none
  | true, false => some x
  | false, true => some (x + 1)
  | true, true =>
    let (value, below) := i.value.aligned x k
    let (_, above) := i.value.aligned (x + 1) k
    if 2 * value < below + above then some x
    else if below + above < 2 * value then some (x + 1)
    else
      match tie with
      | .even => some (if x % 2 = 0 then x else x + 1)
      | .up => some (x + 1)

/-- Moves the zeros at the end of the digits into the exponent, at most `fuel` of
them. -/
def dropZeros : Nat → Decimal → Decimal
  | 0, d => d
  | fuel + 1, d =>
    if d.digits ≠ 0 ∧ d.digits % 10 = 0 then dropZeros fuel ⟨d.digits / 10, d.exponent + 1⟩
    else d

/-- The decimal with the fewest digits that reads back as the double
`significand * 2 ^ exponent`, the nearest one of those.  Seventeen digits always
suffice. -/
def shortest (tie : Tie) (significand : Nat) (exponent : Int) : Decimal :=
  if significand = 0 then ⟨0, 0⟩
  else
    let i := Interval.ofBinary significand exponent
    let top := i.value.magnitude
    let found := (List.range 17).findSome? fun n =>
      let k := top - (n + 1 : Nat)
      (i.onGrid? tie k).map fun x => dropZeros 17 ⟨x, k⟩
    found.getD ⟨i.value.floorAt (top - 17), top - 17⟩

end Decimal
end UtilityCss
