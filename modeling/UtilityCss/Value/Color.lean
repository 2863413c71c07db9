import UtilityCss.Split
import UtilityCss.Decimal.Reading
import UtilityCss.Json.Reader
import UtilityCss.Value.ColorName

/-!
# Colors

A utility never computes with colors.  It has to know whether a text is one, and
to write it again with an opacity: hexadecimal and named colors become `rgb`
calls, functional colors keep their function and channels, and a bare list of
three channels is wrapped in `rgb`.  A color may also carry a placeholder where
its opacity goes.
-/

namespace UtilityCss
namespace Value

/-- What stands for the opacity in a color that leaves it open. -/
def alphaPlaceholder : Text := "<alpha-value>"

/-- The functions that make colors. -/
def colorFunctions : List Text :=
  ["rgb", "rgba", "hsl", "hsla", "hwb", "lab", "lch", "oklab", "oklch", "color"]

/-- A color, in the shape in which it is written. -/
inductive Color where
  /-- A hexadecimal or named color: three channels and perhaps an opacity channel,
  each below 256. -/
  | rgb (red green blue : Nat) (alpha : Option Nat)
  /-- A function with its channels. -/
  | function (name : Text) (channels : List Text)
  | transparent
  | current
  deriving DecidableEq, Repr

/-- Why a text is not a color. -/
inductive ColorError where
  | empty
  | invalidHex (digits : Text)
  | unknown (text : Text)
  | malformedFunction (text : Text)
  deriving DecidableEq, Repr

namespace ColorError

/-- What the error says. -/
def message : ColorError → Text
  | empty => "empty color string"
  | invalidHex digits => "invalid hex color: #".toList ++ digits
  | unknown text => "unknown color: ".toList ++ text
  | malformedFunction text => "malformed color function: ".toList ++ text

end ColorError

/-- The arguments of a color function: the channels, separated by commas if there
is one and by blanks otherwise, and the opacity after a slash. -/
def splitChannels (inner : Text) : List Text :=
  let (channels, alpha) : Text × Option Text :=
    match Text.cutAt? (· = '/') inner with
    | some (channels, alpha) => (channels, some (Text.trim alpha))
    | none => (inner, none)
  let parts :=
    if channels.contains ',' then (Text.pieces (· = ',') channels).map Text.trim
    else Split.terms channels
  parts.filter (fun part => !part.isEmpty) ++ alpha.toList

namespace Color

/-- The color of one, two, three or four channels of one or two hexadecimal digits. -/
def ofHex (digits : Text) : Except ColorError Color :=
  match digits.mapM Json.hexDigit? with
  | some [r, g, b] => .ok (.rgb (r * 17) (g * 17) (b * 17) none)
  | some [r, g, b, a] => .ok (.rgb (r * 17) (g * 17) (b * 17) (some (a * 17)))
  | some [r, r', g, g', b, b'] => .ok (.rgb (r * 16 + r') (g * 16 + g') (b * 16 + b') none)
  | some [r, r', g, g', b, b', a, a'] =>
    .ok (.rgb (r * 16 + r') (g * 16 + g') (b * 16 + b') (some (a * 16 + a')))
  | _ => .error (.invalidHex digits)

/-- The color of a function call, given the name in small letters and the text from
the parenthesis on. -/
def ofCall (name arguments : Text) : Except ColorError Color :=
  let malformed := ColorError.malformedFunction (name ++ arguments)
  match (Text.dropLead? ['('] arguments).bind (Text.dropTail? [')']) with
  | none => .error malformed
  | some inner =>
    let channels := splitChannels inner
    let expected := if name = "color" then 4 else 3
    if channels.length < expected then .error malformed
    else
      let name : Text := if name = "rgba" then "rgb" else if name = "hsla" then "hsl" else name
      .ok (.function name (channels.take expected))

/-- Reads a color, blanks around it apart and in letters of any case. -/
def read (text : Text) : Except ColorError Color :=
  let text := Text.trim text
  let lower := Text.toLower text
  if text = [] then .error .empty
  else if lower = "transparent" then .ok .transparent
  else if lower = "currentcolor" then .ok .current
  else
    match text with
    | '#' :: digits => ofHex digits
    | _ =>
      match Text.cutAt? (· = '(') lower with
      | some (name, _) =>
        if name ∈ colorFunctions then ofCall name (text.drop name.length)
        else .error (.unknown text)
      | none =>
        match namedColors.lookup lower with
        | some (r, g, b) => .ok (.rgb r g b none)
        | none => .error (.unknown text)

/-- The color with an opacity.  The channels of the current color are not known. -/
def withAlpha? (color : Color) (opacity : Text) : Option Text :=
  let call (name : Text) (channels : List Text) : Text :=
    name ++ '(' :: Text.joinWith [' '] channels ++ " / ".toList ++ opacity ++ [')']
  match color with
  | .rgb r g b _ => some (call "rgb" [Text.ofNat r, Text.ofNat g, Text.ofNat b])
  | .function name channels => some (call name channels)
  | .transparent => some (call "rgb" [['0'], ['0'], ['0']])
  | .current => none

/-- The opacity of an opacity channel, as a single-precision number. -/
def opacityOf (alpha : Nat) : Float32 := alpha.toUInt8.toFloat32 / 255

end Color

/-- Is the text a color? -/
def isColor (t : Text) : Bool :=
  match Color.read t with
  | .ok _ => true
  | .error _ => false

/-- Is the text a channel of a bare list: a number, perhaps with percent signs? -/
def isChannel (t : Text) : Bool :=
  let digits := Text.trimEndBy (· = '%') t
  !digits.isEmpty && (Decimal.read? digits).isSome

/-- The color with the given opacity, none when the text is not a color that can
take one. -/
def withOpacity? (value opacity : Text) : Option Text :=
  if Text.includes value alphaPlaceholder then
    some (Text.replaceAll alphaPlaceholder opacity value)
  else
    match Color.read value with
    | .ok color => color.withAlpha? opacity
    | .error _ =>
      let channels := splitChannels value
      if channels.length = 3 && channels.all isChannel then
        (Color.function "rgb" channels).withAlpha? opacity
      else none

/-- The color with the opacity it leaves open taken as full. -/
def withoutOpacity (value : Text) : Text := Text.replaceAll alphaPlaceholder ['1'] value

end Value
end UtilityCss
