import UtilityCss.Config.Basic
import UtilityCss.Config.Palette

/-!
# The built-in preset

The theme that every configuration without presets of its own builds on.  Several
categories are functions: sizes and distances extend the steps of `spacing`, and
the colors of backgrounds, texts and borders are those of `colors`, so that a
configuration changes all of them by changing one.
-/

namespace UtilityCss
namespace Preset

/-- The widths from which screens count as larger. -/
def screens : Data := .ofTexts
  [("sm", "640px"), ("md", "768px"), ("lg", "1024px"), ("xl", "1280px"), ("2xl", "1536px")]

/-- The steps of distances. -/
def spacing : Data := .ofTexts
  [("px", "1px"), ("0", "0px"), ("0.5", "0.125rem"), ("1", "0.25rem"), ("1.5", "0.375rem"),
    ("2", "0.5rem"), ("2.5", "0.625rem"), ("3", "0.75rem"), ("3.5", "0.875rem"), ("4", "1rem"),
    ("5", "1.25rem"), ("6", "1.5rem"), ("7", "1.75rem"), ("8", "2rem"), ("9", "2.25rem"),
    ("10", "2.5rem"), ("11", "2.75rem"), ("12", "3rem"), ("14", "3.5rem"), ("16", "4rem"),
    ("20", "5rem"), ("24", "6rem"), ("28", "7rem"), ("32", "8rem"), ("36", "9rem"),
    ("40", "10rem"), ("44", "11rem"), ("48", "12rem"), ("52", "13rem"), ("56", "14rem"),
    ("60", "15rem"), ("64", "16rem"), ("72", "18rem"), ("80", "20rem"), ("96", "24rem")]

/-- The opacities, in percent. -/
def opacity : Data := .ofTexts
  [("0", "0"), ("5", "0.05"), ("10", "0.1"), ("15", "0.15"), ("20", "0.2"), ("25", "0.25"),
    ("30", "0.3"), ("35", "0.35"), ("40", "0.4"), ("45", "0.45"), ("50", "0.5"), ("55", "0.55"),
    ("60", "0.6"), ("65", "0.65"), ("70", "0.7"), ("75", "0.75"), ("80", "0.8"), ("85", "0.85"),
    ("90", "0.9"), ("95", "0.95"), ("100", "1")]

/-- The sizes of fonts, each with its height of lines. -/
def fontSize : Data := .ofMembers <|
  List.map
    (fun (name, size, height) =>
      (name, .list [.text (String.toList size), .ofTexts [("lineHeight", height)]]))
    [("xs", "0.75rem", "1rem"), ("sm", "0.875rem", "1.25rem"), ("base", "1rem", "1.5rem"),
      ("lg", "1.125rem", "1.75rem"), ("xl", "1.25rem", "1.75rem"), ("2xl", "1.5rem", "2rem"),
      ("3xl", "1.875rem", "2.25rem")]

/-- The heights of lines. -/
def lineHeight : Data := .ofTexts
  [("none", "1"), ("tight", "1.25"), ("snug", "1.375"), ("normal", "1.5"), ("relaxed", "1.625"),
    ("loose", "2"), ("4", "1rem"), ("6", "1.5rem"), ("8", "2rem")]

/-- The weights of fonts. -/
def fontWeight : Data := .ofTexts
  [("thin", "100"), ("extralight", "200"), ("light", "300"), ("normal", "400"),
    ("medium", "500"), ("semibold", "600"), ("bold", "700"), ("extrabold", "800"),
    ("black", "900")]

/-- The families of fonts. -/
def fontFamily : Data := .ofMembers <|
  List.map (fun (name, families) => (name, .list (families.map fun f => .text (String.toList f))))
    [("sans", ["ui-sans-serif", "system-ui", "sans-serif"]),
      ("serif", ["ui-serif", "Georgia", "serif"]),
      ("mono", ["ui-monospace", "SFMono-Regular", "monospace"])]

/-- The widths of borders. -/
def borderWidth : Data := .ofTexts
  [("DEFAULT", "1px"), ("0", "0px"), ("2", "2px"), ("4", "4px"), ("8", "8px")]

/-- The radii of rounded corners. -/
def borderRadius : Data := .ofTexts
  [("none", "0px"), ("sm", "0.125rem"), ("DEFAULT", "0.25rem"), ("md", "0.375rem"),
    ("lg", "0.5rem"), ("xl", "0.75rem"), ("2xl", "1rem"), ("full", "9999px")]

/-- The shadows of boxes. -/
def boxShadow : Data := .ofTexts
  [("sm", "0 1px 2px 0 rgb(0 0 0 / 0.05)"),
    ("DEFAULT", "0 1px 3px 0 rgb(0 0 0 / 0.1), 0 1px 2px -1px rgb(0 0 0 / 0.1)"),
    ("md", "0 4px 6px -1px rgb(0 0 0 / 0.1), 0 2px 4px -2px rgb(0 0 0 / 0.1)"),
    ("lg", "0 10px 15px -3px rgb(0 0 0 / 0.1), 0 4px 6px -4px rgb(0 0 0 / 0.1)"),
    ("inner", "inset 0 2px 4px 0 rgb(0 0 0 / 0.05)"), ("none", "none")]

/-- The layers of stacking. -/
def zIndex : Data := .ofTexts
  [("0", "0"), ("10", "10"), ("20", "20"), ("30", "30"), ("40", "40"), ("50", "50"),
    ("auto", "auto")]

/-- The angles of rotation. -/
def rotate : Data := .ofTexts
  [("0", "0deg"), ("1", "1deg"), ("2", "2deg"), ("3", "3deg"), ("6", "6deg"), ("12", "12deg"),
    ("45", "45deg"), ("90", "90deg"), ("180", "180deg")]

/-- The positions of background images. -/
def backgroundPosition : Data := .ofTexts
  [("bottom", "bottom"), ("center", "center"), ("left", "left"), ("left-bottom", "left bottom"),
    ("left-top", "left top"), ("right", "right"), ("right-bottom", "right bottom"),
    ("right-top", "right top"), ("top", "top")]

/-- The sizes of background images. -/
def backgroundSize : Data := .ofTexts
  [("auto", "auto"), ("cover", "cover"), ("contain", "contain")]

/-- The background images. -/
def backgroundImage : Data := .ofTexts
  [("none", "none"), ("gradient-to-t", "linear-gradient(to top, var(--tw-gradient-stops))"),
    ("gradient-to-r", "linear-gradient(to right, var(--tw-gradient-stops))"),
    ("gradient-to-b", "linear-gradient(to bottom, var(--tw-gradient-stops))"),
    ("gradient-to-l", "linear-gradient(to left, var(--tw-gradient-stops))")]

/-- The generated contents. -/
def content : Data := .ofTexts
  [("none", "none")]

/-- A category that extends the steps of distances by further entries. -/
def sizes (more : Data) : ThemeValue :=
  .computed do return Data.merge (← Query.theme "spacing") more

/-- The widths of boxes. -/
def width : ThemeValue := sizes <| .ofTexts
  [("auto", "auto"), ("1/2", "50%"), ("1/3", "33.333333%"), ("2/3", "66.666667%"),
    ("1/4", "25%"), ("3/4", "75%"), ("full", "100%"), ("screen", "100vw"),
    ("min", "min-content"), ("max", "max-content"), ("fit", "fit-content")]

/-- The heights of boxes. -/
def height : ThemeValue := sizes <| .ofTexts
  [("auto", "auto"), ("1/2", "50%"), ("full", "100%"), ("screen", "100vh"),
    ("min", "min-content"), ("max", "max-content"), ("fit", "fit-content")]

/-- The margins: the automatic one and the steps of distances. -/
def margin : ThemeValue :=
  .computed do return Data.merge (.ofTexts [("auto", "auto")]) (← Query.theme "spacing")

/-- The distances of positioned boxes from their edges. -/
def inset : ThemeValue := sizes <| .ofTexts [("auto", "auto"), ("1/2", "50%"), ("full", "100%")]

/-- The colors of borders: all colors, and a light gray when none is named. -/
def borderColor : ThemeValue :=
  .computed do
    let default ← Query.themeOr "colors.gray.200" (.text "currentColor")
    let colors ← Query.theme "colors"
    return Data.merge colors (.ofMembers [("DEFAULT", default)])

/-- A category that is another one. -/
def same (path : Text) : ThemeValue := .computed (Query.theme path)

/-- The categories of the preset, in order. -/
def categories : List (String × ThemeValue) :=
  [("screens", .data screens), ("colors", .computed (.answer Palette.colors)),
    ("spacing", .data spacing), ("opacity", .data opacity), ("fontSize", .data fontSize),
    ("lineHeight", .data lineHeight), ("fontWeight", .data fontWeight),
    ("fontFamily", .data fontFamily), ("borderWidth", .data borderWidth),
    ("borderRadius", .data borderRadius), ("boxShadow", .data boxShadow),
    ("zIndex", .data zIndex), ("rotate", .data rotate),
    ("backgroundPosition", .data backgroundPosition), ("backgroundSize", .data backgroundSize),
    ("backgroundImage", .data backgroundImage), ("content", .data content), ("width", width),
    ("height", height), ("margin", margin), ("padding", same "spacing"), ("gap", same "spacing"),
    ("inset", inset), ("backgroundColor", same "colors"), ("textColor", same "colors"),
    ("placeholderColor", same "colors"), ("borderColor", borderColor)]

end Preset

/-- The built-in preset, which has no presets itself. -/
def Config.basePreset : Config where
  layer := { theme := Preset.categories.map fun (name, value) => (name.toList, value) }
  presets := some []
  shipped := []

end UtilityCss
