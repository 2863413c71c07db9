import UtilityCss.Json.Data

/-!
# The palette

The built-in colors: a few single ones, and four hues in eleven shades each.
-/

namespace UtilityCss

/-- An object whose members are texts. -/
def Data.ofTexts (members : List (String × String)) : Data :=
  .object (members.map fun (key, value) => (key.toList, .text value.toList))

/-- An object, with string literals as keys. -/
def Data.ofMembers (members : List (String × Data)) : Data :=
  .object (members.map fun (key, value) => (key.toList, value))

namespace Palette

/-- The colors that have no shades. -/
def plain : List (String × Data) := List.map (fun (key, value) => (key, .text value.toList))
  [("inherit", "inherit"), ("current", "currentColor"), ("transparent", "transparent"),
    ("black", "#000"), ("white", "#fff")]

/-- The shades of gray. -/
def gray : Data := .ofTexts
  [("50", "#f9fafb"), ("100", "#f3f4f6"), ("200", "#e5e7eb"), ("300", "#d1d5db"),
    ("400", "#9ca3af"), ("500", "#6b7280"), ("600", "#4b5563"), ("700", "#374151"),
    ("800", "#1f2937"), ("900", "#111827"), ("950", "#030712")]

/-- The shades of red. -/
def red : Data := .ofTexts
  [("50", "#fef2f2"), ("100", "#fee2e2"), ("200", "#fecaca"), ("300", "#fca5a5"),
    ("400", "#f87171"), ("500", "#ef4444"), ("600", "#dc2626"), ("700", "#b91c1c"),
    ("800", "#991b1b"), ("900", "#7f1d1d"), ("950", "#450a0a")]

/-- The shades of green. -/
def green : Data := .ofTexts
  [("50", "#f0fdf4"), ("100", "#dcfce7"), ("200", "#bbf7d0"), ("300", "#86efac"),
    ("400", "#4ade80"), ("500", "#22c55e"), ("600", "#16a34a"), ("700", "#15803d"),
    ("800", "#166534"), ("900", "#14532d"), ("950", "#052e16")]

/-- The shades of blue. -/
def blue : Data := .ofTexts
  [("50", "#eff6ff"), ("100", "#dbeafe"), ("200", "#bfdbfe"), ("300", "#93c5fd"),
    ("400", "#60a5fa"), ("500", "#3b82f6"), ("600", "#2563eb"), ("700", "#1d4ed8"),
    ("800", "#1e40af"), ("900", "#1e3a8a"), ("950", "#172554")]

/-- The palette. -/
def colors : Data :=
  .ofMembers (plain ++ [("gray", gray), ("red", red), ("green", green), ("blue", blue)])

end Palette
end UtilityCss
