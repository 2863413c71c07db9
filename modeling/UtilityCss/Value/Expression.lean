import UtilityCss.Value.Dimension

/-!
# Calls and arithmetic

Values may be calls such as `calc(1px + 2px)` or `var(--x)`.  A text counts as a
call when a name is followed by a parenthesis and the text ends with the closing
one.  Math functions hold arithmetic, which can be classified by its first
number, spaced out around binary signs, and negated.
-/

namespace UtilityCss
namespace Value

/-- The functions whose arguments are arithmetic. -/
def mathFunctions : List Text := ["calc", "min", "max", "clamp"]

/-- The functions whose value is not known here. -/
def referenceFunctions : List Text := ["var", "env"]

/-- The name of the function when the text reads as a call. -/
def functionName? (t : Text) : Option Text :=
  match Text.cutAt? (· = '(') t with
  | some (name, _) =>
    if !name.isEmpty && name.all (fun c => c.isAlphanum || c = '-' || c = '_')
        && Text.endsWith t [')'] then
      some name
    else none
  | none => none

/-- Is the text a call of a math function? -/
def isMathFunction (t : Text) : Bool := (functionName? t).any (· ∈ mathFunctions)

/-- Is the text a reference, whose type cannot be known? -/
def isReference (t : Text) : Bool := (functionName? t).any (· ∈ referenceFunctions)

/-! ## The first number -/

/-- Does a number start with this character? -/
def startsNumber (c : Char) (t : Text) : Bool :=
  c.isDigit || c = '.' && Text.startsWithChar t Char.isDigit

/-- The class of the first number of an expression that is outside references.

`reference` is the depth of the reference being read, zero outside; `before` is
the character just behind, and `word` the letters of the name being read, the last
one first. -/
def firstUnitFrom (reference depth : Nat) (before : Option Char) (word : Text) :
    Text → Option UnitClass
  | [] => none
  | c :: t =>
    if !word.isEmpty && (c.isAlphanum || c = '-') then
      firstUnitFrom reference depth (some c) (c :: word) t
    else if c = '(' then
      let reference := if word.reverse ∈ referenceFunctions then depth + 1 else reference
      firstUnitFrom reference (depth + 1) (some c) [] t
    else if c = ')' then
      firstUnitFrom (if reference = depth then 0 else reference) (depth - 1) (some c) [] t
    else if reference = 0 && c.isAlpha then
      firstUnitFrom reference depth (some c) [c] t
    else if reference = 0 && startsNumber c t
        && !before.any (fun b => b.isAlpha || b = '-') then
      match number? (c :: t) with
      | some (_, rest) => some (.ofUnit (unitAt rest))
      | none => firstUnitFrom reference depth (some c) [] t
    else firstUnitFrom reference depth (some c) [] t

/-- The class of the first number of an expression.  A number that is part of a
name or stands inside a reference does not count. -/
def firstUnit? (t : Text) : Option UnitClass := firstUnitFrom 0 0 none [] t

/-! ## Negation -/

/-- The text without the signs at its beginning. -/
def dropSigns (t : Text) : Text := t.dropWhile fun c => c = '+' || c = '-'

/-- The value with its sign flipped: a dimension by its sign, anything else by a
multiplication.  Zero has no sign. -/
def negate (t : Text) : Text :=
  match dimension? t with
  | some (number, _) =>
    if (dropSigns number).all fun c => c = '0' || c = '.' then dropSigns t
    else
      match t with
      | '-' :: positive => positive
      | _ => '-' :: t.dropWhile (· = '+')
  | none => "calc(".toList ++ t ++ " * -1)".toList

/-! ## Spaces around binary signs -/

/-- What the spacing of signs depends on. -/
structure Spacing where
  /-- For each open parenthesis, the innermost first: does it hold arithmetic? -/
  levels : List Bool
  /-- The letters of the name being read, the last one first. -/
  word : Text
  /-- What is written so far, the last character first. -/
  written : Text

namespace Spacing

/-- Is arithmetic being read? -/
def inMath (s : Spacing) : Bool := s.levels.head? == some true

/-- May an operand end with this character? -/
def endsOperand (c : Char) : Bool := c.isAlphanum || c = '%' || c = ')'

/-- May an operand start with this character? -/
def startsOperand (c : Char) : Bool := c.isAlphanum || c = '.' || c = '('

/-- Does a minus sign belong to the exponent of a number? -/
def inExponent (s : Spacing) (next : Option Char) : Bool :=
  (match s.written with
    | e :: d :: _ => (e = 'e' || e = 'E') && d.isDigit
    | _ => false) && next.any Char.isDigit

/-- Writes a sign inside arithmetic, between spaces when it is a binary one. -/
def sign (s : Spacing) (c : Char) (next : Option Char) : Spacing :=
  let inWord := c = '-' && !s.word.isEmpty && next.any Char.isAlpha
  let binary := s.written.head?.any endsOperand && next.any startsOperand
    && !(c = '-' && s.inExponent next) && !inWord
  { s with
    word := if inWord then c :: s.word else []
    written := if binary then ' ' :: c :: ' ' :: s.written else c :: s.written }

/-- Writes one character, knowing the next. -/
def step (s : Spacing) (c : Char) (next : Option Char) : Spacing :=
  if c = '(' then
    let math := s.word.reverse ∈ mathFunctions || s.word.isEmpty && s.inMath
    { levels := math :: s.levels, word := [], written := c :: s.written }
  else if c = ')' then { levels := s.levels.tail, word := [], written := c :: s.written }
  else if (c = '+' || c = '-') && s.inMath then s.sign c next
  else if c.isAlphanum || c = '_' then
    { s with
      word := if c.isAlpha || !s.word.isEmpty then c :: s.word else s.word
      written := c :: s.written }
  else { s with word := [], written := c :: s.written }

/-- Writes a text. -/
def run : Spacing → Text → Spacing
  | s, [] => s
  | s, c :: t => run (s.step c t.head?) t

end Spacing

/-- The text with spaces around the binary signs inside math functions. -/
def spaceMath (t : Text) : Text :=
  if mathFunctions.any fun f => Text.includes t (f ++ ['(']) then
    (Spacing.run ⟨[], [], []⟩ t).written.reverse
  else t

end Value
end UtilityCss
