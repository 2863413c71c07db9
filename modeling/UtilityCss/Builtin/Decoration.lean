import UtilityCss.Builtin.Declaration

/-!
# Decoration

The built-in utilities for backgrounds, borders, shadows and opacity.  Several of
them share a name and are told apart by the kinds of values they take.
-/

namespace UtilityCss
namespace Builtin

/-- Background colors. -/
def backgroundColor (around : Surroundings) : List Registration :=
  lookups (valuesOf around "backgroundColor" colorKinds) [("bg", ["background-color"])]

/-- Background images. -/
def backgroundImage (around : Surroundings) : List Registration :=
  lookups (valuesOf around "backgroundImage" [.image, .url]) [("bg", ["background-image"])]

/-- The positions of background images. -/
def backgroundPosition (around : Surroundings) : List Registration :=
  lookups (valuesOf around "backgroundPosition" [.backgroundPosition])
    [("bg", ["background-position"])]

/-- The sizes of background images. -/
def backgroundSize (around : Surroundings) : List Registration :=
  lookups (valuesOf around "backgroundSize" [.backgroundSize, .length, .percentage])
    [("bg", ["background-size"])]

/-- Opacities. -/
def opacity (around : Surroundings) : List Registration :=
  lookups (valuesOf around "opacity" [.number, .percentage, .any]) [("opacity", ["opacity"])]

/-- The widths of borders. -/
def borderWidth (around : Surroundings) : List Registration :=
  lookups (valuesOf around "borderWidth" [.lineWidth, .length])
    [("border", ["border-width"]), ("border-x", ["border-left-width", "border-right-width"]),
      ("border-y", ["border-top-width", "border-bottom-width"]),
      ("border-t", ["border-top-width"]), ("border-r", ["border-right-width"]),
      ("border-b", ["border-bottom-width"]), ("border-l", ["border-left-width"])]

/-- The colors of borders. -/
def borderColor (around : Surroundings) : List Registration :=
  lookups (named (valuesOf around "borderColor" colorKinds))
    [("border", ["border-color"]), ("border-x", ["border-left-color", "border-right-color"]),
      ("border-y", ["border-top-color", "border-bottom-color"]),
      ("border-t", ["border-top-color"]), ("border-r", ["border-right-color"]),
      ("border-b", ["border-bottom-color"]), ("border-l", ["border-left-color"])]

/-- The radii of rounded corners. -/
def borderRadius (around : Surroundings) : List Registration :=
  lookups (valuesOf around "borderRadius" sizeKinds)
    [("rounded", ["border-radius"]),
      ("rounded-t", ["border-top-left-radius", "border-top-right-radius"]),
      ("rounded-r", ["border-top-right-radius", "border-bottom-right-radius"]),
      ("rounded-b", ["border-bottom-right-radius", "border-bottom-left-radius"]),
      ("rounded-l", ["border-top-left-radius", "border-bottom-left-radius"])]

/-- The shadows of boxes. -/
def boxShadow (around : Surroundings) : List Registration :=
  lookups (valuesOf around "boxShadow" [.shadow, .any]) [("shadow", ["box-shadow"])]

end Builtin
end UtilityCss
