import UtilityCss.Text.Alphanumeric
import UtilityCss.Value.Color
import UtilityCss.Value.Expression

/-!
# Values of several terms

Shadows, images, positions, sizes and font lists consist of layers between
commas, and layers of terms between blanks.  Each predicate below says which
terms a layer may have; a value with an empty layer is never accepted.
-/

namespace UtilityCss
namespace Value

/-- The functions that make images. -/
def imageFunctions : List Text :=
  ["url", "image", "image-set", "cross-fade", "element", "linear-gradient", "radial-gradient",
    "conic-gradient", "repeating-linear-gradient", "repeating-radial-gradient",
    "repeating-conic-gradient"]

/-- The generic font families. -/
def genericFamilies : List Text :=
  ["serif", "sans-serif", "monospace", "cursive", "fantasy", "system-ui", "ui-serif",
    "ui-sans-serif", "ui-monospace", "ui-rounded", "math", "emoji", "fangsong"]

/-- The layers of a value, none when one of them is empty. -/
def layers? (t : Text) : Option (List Text) :=
  let layers := (Split.atChar ',' t).map Text.trim
  if layers.all fun layer => !layer.isEmpty then some layers else none

/-- Does every layer of the value satisfy the condition? -/
def allLayers (p : Text → Bool) (t : Text) : Bool := (layers? t).any fun layers => layers.all p

/-! ## Single terms -/

/-- A length, a zero, or arithmetic whose first number is a length or that has no
number at all. -/
def isLength (t : Text) : Bool :=
  dimensionClass? t == some .length || isZero t ||
    isMathFunction t && (firstUnit? t == some .length || firstUnit? t == none)

/-- A percentage, or arithmetic whose first number is one. -/
def isPercentage (t : Text) : Bool :=
  dimensionClass? t == some .percentage ||
    isMathFunction t && firstUnit? t == some .percentage

/-- A length, a percentage, or a reference to either. -/
def isLengthPercentage (t : Text) : Bool := isLength t || isPercentage t || isReference t

/-- One of the generic font families. -/
def isGenericFamily (t : Text) : Bool := t ∈ genericFamilies

/-! ## Shadows -/

/-- How many terms of each sort a shadow has. -/
structure ShadowTerms where
  lengths : Nat
  insets : Nat
  colors : Nat

/-- Counts the terms of a shadow, none when one is of no sort. -/
def ShadowTerms.count? : List Text → Option ShadowTerms
  | [] => some ⟨0, 0, 0⟩
  | term :: rest => do
    let n ← count? rest
    if term = "inset" then some { n with insets := n.insets + 1 }
    else if isLength term then some { n with lengths := n.lengths + 1 }
    else if isColor term || isReference term then some { n with colors := n.colors + 1 }
    else none

/-- A layer of a shadow: two to four lengths, at most one `inset` and at most one
color, in any order. -/
def isShadowLayer (t : Text) : Bool :=
  match ShadowTerms.count? (Split.terms t) with
  | some n => 2 ≤ n.lengths && n.lengths ≤ 4 && n.insets ≤ 1 && n.colors ≤ 1
  | none => false

/-- A box shadow, or `none`. -/
def isShadow (t : Text) : Bool := Text.trim t = "none" || allLayers isShadowLayer t

/-! ## Images -/

/-- A layer that is a call of an image function. -/
def isImageLayer (t : Text) : Bool :=
  match Text.cutAt? (· = '(') t with
  | some (name, _) => Text.endsWith t [')'] && name ∈ imageFunctions
  | none => false

/-- Layers of images. -/
def isImage (t : Text) : Bool := allLayers isImageLayer t

/-! ## Positions -/

/-- The axis along which a term of a position places. -/
inductive Axis where
  | horizontal
  | vertical
  | either
  deriving DecidableEq, Repr

/-- A term of a position. -/
inductive PositionTerm where
  | edge (axis : Axis)
  | center
  | offset
  deriving DecidableEq, Repr

namespace PositionTerm

/-- Reads a term of a position. -/
def read? (t : Text) : Option PositionTerm :=
  if t = "left" || t = "right" then some (.edge .horizontal)
  else if t = "top" || t = "bottom" then some (.edge .vertical)
  else if t = "center" then some .center
  else if isLengthPercentage t then some .offset
  else none

/-- The axis of a term that could go on either. -/
def axis : PositionTerm → Axis
  | edge axis => axis
  | center | offset => .either

/-- The axis of a term; an offset takes the axis of its place. -/
def axisAt (place : Axis) : PositionTerm → Axis
  | offset => place
  | term => term.axis

end PositionTerm

/-- Can the two axes be given side by side? -/
def Axis.goesWith (a b : Axis) : Bool := a = .either || b = .either || a != b

/-- The axes of keywords each followed by at most one offset, none when an offset
follows no edge. -/
def edgeAxes? : List PositionTerm → Option (List Axis)
  | [] => some []
  | .offset :: _ => none
  | .center :: rest => (edgeAxes? rest).map (.either :: ·)
  | .edge axis :: .offset :: rest => (edgeAxes? rest).map (axis :: ·)
  | .edge axis :: rest => (edgeAxes? rest).map (axis :: ·)

/-- One to four terms that place along both axes at most once.  Of two terms the
first offset is horizontal and the second vertical; of more, an offset belongs to
the edge before it. -/
def isPosition : List PositionTerm → Bool
  | [_] => true
  | [a, b] => (a.axisAt .horizontal).goesWith (b.axisAt .vertical)
  | [a, b, c] => twoEdges [a, b, c]
  | [a, b, c, d] => twoEdges [a, b, c, d]
  | _ => false
where
  /-- Are the terms two keywords with their offsets, along different axes? -/
  twoEdges (terms : List PositionTerm) : Bool :=
    match edgeAxes? terms with
    | some [a, b] => a.goesWith b
    | _ => false

/-- A layer that is a position. -/
def isPositionLayer (t : Text) : Bool :=
  match (Split.terms t).mapM PositionTerm.read? with
  | some terms => isPosition terms
  | none => false

/-- Layers of background positions. -/
def isBackgroundPosition (t : Text) : Bool := allLayers isPositionLayer t

/-! ## Sizes and fonts -/

/-- A layer that is a keyword for a size, or one or two sizes. -/
def isSizeLayer (t : Text) : Bool :=
  if t = "cover" || t = "contain" then true
  else
    let terms := Split.terms t
    1 ≤ terms.length && terms.length ≤ 2
      && terms.all fun term => term = "auto" || isLengthPercentage term

/-- Layers of background sizes. -/
def isBackgroundSize (t : Text) : Bool := allLayers isSizeLayer t

/-- Is the text between two quotes of this kind? -/
def isBetween (quote : Char) (t : Text) : Bool :=
  2 ≤ t.length && Text.startsWith t [quote] && Text.endsWith t [quote]

/-- A word of a font name that is not quoted. -/
def isFamilyWord (t : Text) : Bool :=
  !Text.startsWithChar t Char.isDigit && !Text.startsWith t "--"
    && t.all fun c => Text.isAlphanumeric c || c = '-' || c = '_'

/-- A font name, quoted or made of words. -/
def isFamily (t : Text) : Bool :=
  isBetween '\x22' t || isBetween '\x27' t || (Text.words t).all isFamilyWord

/-- A list of font names. -/
def isFamilyList (t : Text) : Bool := allLayers isFamily t

end Value
end UtilityCss
