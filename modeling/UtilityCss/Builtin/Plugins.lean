import UtilityCss.Builtin.Decoration
import UtilityCss.Builtin.Layout
import UtilityCss.Builtin.Names
import UtilityCss.Builtin.Typography

/-!
# The built-in plugins

The built-in plugins in the order of their names.
-/

namespace UtilityCss
namespace Builtin

/-- The styles that even out the differences between browsers. -/
def preflight (_ : Surroundings) : List Registration :=
  [.base <| rules
    [("*, ::before, ::after", declarations
        [("box-sizing", "border-box"), ("border-width", "0"), ("border-style", "solid"),
          ("border-color", "theme('borderColor.DEFAULT', currentColor)")]),
      ("html", declarations
        [("line-height", "1.5"), ("font-family", "theme('fontFamily.sans', sans-serif)")]),
      ("body", declarations [("margin", "0"), ("line-height", "inherit")]),
      ("hr", declarations
        [("height", "0"), ("color", "inherit"), ("border-top-width", "1px")]),
      ("img, video", declarations [("max-width", "100%"), ("height", "auto")])]]

/-- What the built-in plugins register. -/
def handlers : List (Surroundings → List Registration) :=
  [preflight, pseudoClassVariants, pseudoElementVariants, groupVariants, peerVariants,
    darkVariant, screenVariants, mediaVariants, supportsVariant, dataVariant, ariaVariant,
    container, display, position, inset, zIndex, margin, padding, width, height, gap, rotate,
    backgroundColor, backgroundImage, backgroundPosition, backgroundSize, opacity, borderWidth,
    borderColor, borderRadius, boxShadow, textColor, fontSize, fontWeight, fontFamily,
    placeholderColor, content]

/-- The built-in plugins. -/
def plugins : List Plugin := List.zipWith Plugin.mk names handlers

/-- Every name has its plugin. -/
theorem plugins_map_name : plugins.map Plugin.name = names := rfl

/-- The built-in plugins that the settings enable. -/
def enabled (settings : Settings) : List Plugin :=
  plugins.filter fun plugin => settings.enabled.contains plugin.name

end Builtin
end UtilityCss
