import UtilityCss.Builtin.Declaration

/-!
# Text and fonts

The built-in utilities for the color, the size, the weight and the family of text,
and for generated content.
-/

namespace UtilityCss
namespace Builtin

/-- Text colors. -/
def textColor (around : Surroundings) : List Registration :=
  lookups (valuesOf around "textColor" colorKinds) [("text", ["color"])]

/-- The options that a theme entry pairs with a font size, and the properties they
set. -/
def fontOptions : List (Text × Text) :=
  [("lineHeight", "line-height"), ("letterSpacing", "letter-spacing"),
    ("fontWeight", "font-weight")]

/-- The declarations that a theme entry pairs with a font size: a height of lines, or
an object of options. -/
def pairedStyle : Option Data → StyleTree
  | some (.list [_, .text lineHeight]) => [("line-height", .scalar lineHeight)]
  | some (.list [_, .object options]) =>
    fontOptions.filterMap fun (option, property) =>
      ((options.lookup option).bind Value.entryText?).map fun text => (property, .scalar text)
  | _ => []

/-- The style of a font size.  A modifier gives the height of lines, as an entry of
the theme or as it is written; otherwise the entry of the size may. -/
def fontSizeStyle (size : Text) (info : RenderInfo) : StyleTree :=
  ("font-size", .scalar size) ::
    match info.modifier with
    | some modifier =>
      let path := "lineHeight[".toList ++ modifier ++ [']']
      let lineHeight := (info.theme.get? path).bind Value.entryText?
      [("line-height", .scalar (lineHeight.getD modifier))]
    | none => pairedStyle info.entry

/-- Font sizes. -/
def fontSize (around : Surroundings) : List Registration :=
  [.lookup "text"
    (valuesOf around "fontSize" [.absoluteSize, .length, .percentage, .relativeSize])
    fontSizeStyle]

/-- Font weights. -/
def fontWeight (around : Surroundings) : List Registration :=
  lookups (valuesOf around "fontWeight" [.number, .any]) [("font", ["font-weight"])]

/-- Font families. -/
def fontFamily (around : Surroundings) : List Registration :=
  lookups (valuesOf around "fontFamily" [.genericName, .familyName]) [("font", ["font-family"])]

/-- The colors of placeholders. -/
def placeholderColor (around : Surroundings) : List Registration :=
  [.lookup "placeholder" (valuesOf around "placeholderColor" colorKinds) fun value _ =>
    [("&::placeholder", .tree [("color", .scalar value)])]]

/-- The style that generates content. -/
def contentStyle (value : Text) (_ : RenderInfo) : StyleTree :=
  [("--tw-content", .scalar value), ("content", .scalar "var(--tw-content)")]

/-- Generated content. -/
def content (around : Surroundings) : List Registration :=
  [.defaults (declarations [("--tw-content", "''")]),
    .lookup "content" (valuesOf around "content" [.any]) contentStyle]

end Builtin
end UtilityCss
