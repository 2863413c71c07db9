import UtilityCss.Decimal.Notation
import UtilityCss.Value.Composite

/-!
# Kinds of values

A utility declares the kinds of values it takes.  A bracketed value is offered to
them in turn and belongs to the first kind that accepts it, unless a tag names
the kind, in which case the value is trusted.  The kind `any` accepts everything
and changes nothing.

A theme entry is formatted by a kind as well, but not checked: it is used as it
stands, with opacity and sign applied.
-/

namespace UtilityCss
namespace Value

/-- A kind of values. -/
inductive Kind where
  | number
  | length
  | percentage
  | angle
  | color
  | url
  | image
  | lineWidth
  | absoluteSize
  | relativeSize
  | genericName
  | familyName
  | shadow
  | backgroundPosition
  | backgroundSize
  /-- Accepts any value as it is. -/
  | any
  deriving DecidableEq, Repr

namespace Kind

/-- The kinds that say something about a value, in the order in which tags are
looked up. -/
def concrete : List Kind :=
  [number, length, percentage, angle, color, url, image, lineWidth, absoluteSize, relativeSize,
    genericName, familyName, shadow, backgroundPosition, backgroundSize]

/-- Every kind, `any` last. -/
def all : List Kind := concrete ++ [any]

/-- The list of kinds is complete. -/
theorem mem_all (k : Kind) : k ∈ all := by cases k <;> decide

/-- The name of the kind, which is also its tag. -/
def name : Kind → Text
  | number => "number"
  | length => "length"
  | percentage => "percentage"
  | angle => "angle"
  | color => "color"
  | url => "url"
  | image => "image"
  | lineWidth => "line-width"
  | absoluteSize => "absolute-size"
  | relativeSize => "relative-size"
  | genericName => "generic-name"
  | familyName => "family-name"
  | shadow => "shadow"
  | backgroundPosition => "background-position"
  | backgroundSize => "background-size"
  | any => "any"

/-- Further tags of the kind. -/
def otherTags : Kind → List Text
  | backgroundPosition => ["position", "bg-position"]
  | backgroundSize => ["size", "bg-size"]
  | image => ["gradient"]
  | familyName => ["family"]
  | _ => []

/-- Does the tag name this kind? -/
def isTag (k : Kind) (tag : Text) : Bool := tag = k.name || tag ∈ k.otherTags

/-- The kind that a tag names. -/
def ofTag? (tag : Text) : Option Kind := all.find? fun k => k.isTag tag

/-- Is the text arithmetic whose first number is of this class? -/
def isMathOf (c : UnitClass) (t : Text) : Bool := isMathFunction t && firstUnit? t == some c

/-- Does the trimmed, non-empty text look like a value of this kind? -/
def fits (k : Kind) (t : Text) : Bool :=
  match k with
  | number => dimensionClass? t == some .unitless || isMathOf .unitless t
  | length => isLength t
  | percentage => isPercentage t
  | angle => dimensionClass? t == some .angle || isMathOf .angle t
  | color => isColor t
  | url => Text.startsWith t "url(" && Text.endsWith t [')']
  | image => isImage t
  | lineWidth => t = "thin" || t = "medium" || t = "thick" || isLength t
  | absoluteSize =>
    t ∈ (["xx-small", "x-small", "small", "medium", "large", "x-large", "xx-large",
      "xxx-large"] : List Text)
  | relativeSize => t = "larger" || t = "smaller"
  | genericName => isGenericFamily t
  | familyName =>
    (t.contains ',' || t.contains '\x22' || t.contains '\x27') && isFamilyList t
  | shadow => isShadow t
  | backgroundPosition => isBackgroundPosition t
  | backgroundSize => isBackgroundSize t
  | any => true

/-- Does the kind accept the text?  A trusted text only has to be there. -/
def accepts (k : Kind) (t : Text) (trusted : Bool) : Bool :=
  let t := Text.trim t
  !t.isEmpty && (trusted || k.fits t)

/-- Can values of the kind be negated? -/
def negatable : Kind → Bool
  | number | length | percentage | angle | any => true
  | _ => false

/-- The value with its sign flipped, or with its opacity applied when it is a color. -/
def finish (k : Kind) (value : Text) (negative : Bool) (opacity : Option Text) : Option Text :=
  if negative then if k.negatable then some (negate value) else none
  else if k = color then
    match opacity with
    | some opacity => some ((withOpacity? value opacity).getD value)
    | none => some (withoutOpacity value)
  else some value

/-- Checks and formats a bracketed value. -/
def formatValue? (k : Kind) (raw : Text) (negative trusted : Bool) (opacity : Option Text) :
    Option Text :=
  let raw := Text.trim raw
  if k.accepts raw trusted then k.finish raw negative opacity else none

end Kind

mutual

/-- The text of a theme entry: of a value with options the value, of a list its
items between commas, of an object the entry `DEFAULT`.  Truth values and absent
values have none. -/
def entryText? : Data → Option Text
  | .text value => some value
  | .number text => some text
  | .list [first, .object _] => entryText? first
  | .list items => (itemTexts? items).map (Text.joinWith ", ")
  | .object members => defaultText? members
  | .bool _ | .null => none

/-- The texts of the items of a list, none when an item has no text. -/
def itemTexts? : List Data → Option (List Text)
  | [] => some []
  | item :: rest => do return (← entryText? item) :: (← itemTexts? rest)

/-- The text of the entry `DEFAULT` of an object. -/
def defaultText? : List (Text × Data) → Option Text
  | [] => none
  | (key, value) :: rest => if key = "DEFAULT" then entryText? value else defaultText? rest

end

/-- The opacity that a number stands for when it is a modifier: a hundredth of it. -/
def percentOpacity? (modifier : Text) : Option Text :=
  (Decimal.read? modifier).map fun n => (Binary.ofFloat (n / 100)).cssText

/-- Formats a theme entry.  A modifier gives the opacity when no other is given. -/
def Kind.formatEntry? (k : Kind) (entry : Data) (negative : Bool)
    (opacity modifier : Option Text) : Option Text :=
  match entryText? entry with
  | none => none
  | some text => k.finish text negative (opacity <|> modifier.bind percentOpacity?)

/-- A value with the kind that its tag names, when it has a tag. -/
def splitTag? (raw : Text) : Option (Kind × Text) :=
  match Text.cutAt? (· = ':') raw with
  | some (tag, rest) => (Kind.ofTag? tag).map fun k => (k, rest)
  | none => none

end Value
end UtilityCss
