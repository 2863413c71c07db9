import UtilityCss.Text.Basic

/-!
# The names of the built-in plugins

The built-in plugins are switched on and off by name.  They register in the order
of this list, before every plugin of the configuration.
-/

namespace UtilityCss
namespace Builtin

/-- The names of the built-in plugins, in order. -/
def names : List Text := Text.listOf
  ["preflight", "pseudoClassVariants", "pseudoElementVariants", "groupVariants", "peerVariants",
    "darkVariant", "screenVariants", "mediaVariants", "supportsVariant", "dataVariant",
    "ariaVariant", "container", "display", "position", "inset", "zIndex", "margin", "padding",
    "width", "height", "gap", "rotate", "backgroundColor", "backgroundImage",
    "backgroundPosition", "backgroundSize", "opacity", "borderWidth", "borderColor",
    "borderRadius", "boxShadow", "textColor", "fontSize", "fontWeight", "fontFamily",
    "placeholderColor", "content"]

end Builtin
end UtilityCss
