import UtilityCss.Builtin.Variants

/-!
# Boxes and their places

The built-in utilities for containers, display and position, distances, sizes,
stacking and rotation.
-/

namespace UtilityCss
namespace Builtin

/-- The container: as wide as it can be, and on each screen at most as wide as the
screen at least is. -/
def containerTree (around : Surroundings) : StyleTree :=
  (screens around).foldl
    (fun tree (_, width) =>
      Keyed.put (minWidth width)
        (.tree [(".container", .tree [("max-width", .scalar width)])]) tree)
    [(".container", .tree [("width", .scalar "100%")])]

/-- The container as a component. -/
def container (around : Surroundings) : List Registration :=
  [.classes (containerTree around) .component]

/-- A class for each keyword of a property. -/
def keywords (property : String) (classes : List (String × String)) : List Registration :=
  [.classes
    (classes.map fun (name, keyword) =>
      ('.' :: name.toList, .tree (declarations [(property, keyword)])))
    .standard]

/-- How boxes are displayed. -/
def display (_ : Surroundings) : List Registration :=
  keywords "display"
    [("block", "block"), ("inline-block", "inline-block"), ("inline", "inline"),
      ("flex", "flex"), ("inline-flex", "inline-flex"), ("table", "table"),
      ("flow-root", "flow-root"), ("grid", "grid"), ("inline-grid", "inline-grid"),
      ("contents", "contents"), ("list-item", "list-item"), ("hidden", "none")]

/-- How boxes are positioned. -/
def position (_ : Surroundings) : List Registration :=
  keywords "position"
    [("static", "static"), ("fixed", "fixed"), ("absolute", "absolute"),
      ("relative", "relative"), ("sticky", "sticky")]

/-- The distances of positioned boxes from their edges. -/
def inset (around : Surroundings) : List Registration :=
  lookups (signed (valuesOf around "inset" sizeKinds))
    [("inset", ["inset"]), ("inset-x", ["left", "right"]), ("inset-y", ["top", "bottom"]),
      ("top", ["top"]), ("right", ["right"]), ("bottom", ["bottom"]), ("left", ["left"])]

/-- The order of stacking. -/
def zIndex (around : Surroundings) : List Registration :=
  lookups (signed (valuesOf around "zIndex" [.number, .any])) [("z", ["z-index"])]

/-- Margins. -/
def margin (around : Surroundings) : List Registration :=
  lookups (signed (valuesOf around "margin" sizeKinds))
    [("m", ["margin"]), ("mx", ["margin-left", "margin-right"]),
      ("my", ["margin-top", "margin-bottom"]), ("ms", ["margin-inline-start"]),
      ("me", ["margin-inline-end"]), ("mt", ["margin-top"]), ("mr", ["margin-right"]),
      ("mb", ["margin-bottom"]), ("ml", ["margin-left"])]

/-- Paddings. -/
def padding (around : Surroundings) : List Registration :=
  lookups (valuesOf around "padding" sizeKinds)
    [("p", ["padding"]), ("px", ["padding-left", "padding-right"]),
      ("py", ["padding-top", "padding-bottom"]), ("ps", ["padding-inline-start"]),
      ("pe", ["padding-inline-end"]), ("pt", ["padding-top"]), ("pr", ["padding-right"]),
      ("pb", ["padding-bottom"]), ("pl", ["padding-left"])]

/-- Widths. -/
def width (around : Surroundings) : List Registration :=
  lookups (valuesOf around "width" sizeKinds) [("w", ["width"])]

/-- Heights. -/
def height (around : Surroundings) : List Registration :=
  lookups (valuesOf around "height" sizeKinds) [("h", ["height"])]

/-- Gaps between the items of a grid. -/
def gap (around : Surroundings) : List Registration :=
  lookups (valuesOf around "gap" sizeKinds)
    [("gap", ["gap"]), ("gap-x", ["column-gap"]), ("gap-y", ["row-gap"])]

/-- The style that rotates a box by an angle. -/
def rotation (angle : Text) (_ : RenderInfo) : StyleTree :=
  [("--tw-rotate", .scalar angle), ("transform", .scalar "rotate(var(--tw-rotate))")]

/-- Rotations. -/
def rotate (around : Surroundings) : List Registration :=
  [.defaults (declarations [("--tw-rotate", "0")]),
    .lookup "rotate" (signed (valuesOf around "rotate" [.angle, .any])) rotation]

end Builtin
end UtilityCss
