import UtilityCss.Builtin.Declaration

/-!
# Built-in variants

Pseudo-classes and pseudo-elements, the states of a marked ancestor or sibling,
dark mode, screens, media and feature queries, and attributes.  A template is a
selector with `&` for what it applies to or an at-rule, and may open further
levels with braces.
-/

namespace UtilityCss
namespace Builtin

/-- The pseudo-classes, in the order of their variants. -/
def pseudoClasses : List (String × String) :=
  [("first", ":first-child"), ("last", ":last-child"), ("only", ":only-child"),
    ("odd", ":nth-child(odd)"), ("even", ":nth-child(even)"),
    ("first-of-type", ":first-of-type"), ("last-of-type", ":last-of-type"),
    ("visited", ":visited"), ("target", ":target"), ("open", "[open]"), ("default", ":default"),
    ("checked", ":checked"), ("indeterminate", ":indeterminate"),
    ("placeholder-shown", ":placeholder-shown"), ("autofill", ":autofill"),
    ("optional", ":optional"), ("required", ":required"), ("valid", ":valid"),
    ("invalid", ":invalid"), ("in-range", ":in-range"), ("out-of-range", ":out-of-range"),
    ("read-only", ":read-only"), ("empty", ":empty"), ("focus-within", ":focus-within"),
    ("hover", ":hover"), ("focus", ":focus"), ("focus-visible", ":focus-visible"),
    ("active", ":active"), ("enabled", ":enabled"), ("disabled", ":disabled")]

/-- The template for hovering, which asks for a device that can hover. -/
def hoverTemplate : Text := "@media (hover: hover) and (pointer: fine) \x7b &:hover \x7d"

/-- A variant for each pseudo-class. -/
def pseudoClassVariants (_ : Surroundings) : List Registration :=
  pseudoClasses.map fun (name, selector) =>
    .template name.toList [if name = "hover" then hoverTemplate else '&' :: selector.toList]

/-- What generated boxes need to be rendered at all goes before their style. -/
def withContent (tree : StyleTree) : StyleTree :=
  StyleTree.merge [("content", .scalar "var(--tw-content)")] tree

/-- The variants for pseudo-elements. -/
def pseudoElementVariants (_ : Surroundings) : List Registration :=
  [.template "first-letter" ["&::first-letter"],
    .template "first-line" ["&::first-line"],
    .template "marker" ["& *::marker", "&::marker"],
    .template "selection" ["& *::selection", "&::selection"],
    .template "file" ["&::file-selector-button"],
    .template "placeholder" ["&::placeholder"],
    .template "backdrop" ["&::backdrop"],
    .variant "before" (.fixed ["&::before"]) (some withContent),
    .variant "after" (.fixed ["&::after"]) (some withContent)]

/-- The states that a marked element can be in, as selectors to be appended. -/
def stateValues : ValueTable :=
  pseudoClasses.map fun (name, selector) => (name.toList, .text selector.toList)

/-- The selector of a marker class; a modifier gives the marked element a name. -/
def markerSelector (marker : Text) (modifier : Option Text) : Text :=
  match modifier with
  | some name => '.' :: marker ++ '\x5c' :: '/' :: name
  | none => '.' :: marker

/-- The selector of a marked element in a state.  The state may say with `&` where
the element goes; otherwise it is appended. -/
def inState (marker state : Text) : Option Text :=
  let state := Text.trim state
  if state.isEmpty then none
  else if state.contains '&' then some (Text.replaceAll ['&'] marker state)
  else some (marker ++ state)

/-- A variant for the states of an element marked with a class. -/
def markedVariant (around : Surroundings) (name tail : Text) : Registration :=
  let marker := around.settings.lead ++ name
  .variant name
    (.lookup
      { values := stateValues
        render := fun state modifier =>
          (inState (markerSelector marker modifier) state).map (· ++ tail) })
    none

/-- The variant for the states of a marked ancestor. -/
def groupVariants (around : Surroundings) : List Registration :=
  [markedVariant around "group" " &"]

/-- The variant for the states of a marked sibling. -/
def peerVariants (around : Surroundings) : List Registration :=
  [markedVariant around "peer" " ~ &"]

/-- The variant for dark mode. -/
def darkVariant (around : Surroundings) : List Registration :=
  [.template "dark" [around.settings.darkMode.template]]

/-- The query for screens of at least a width. -/
def minWidth (width : Text) : Text := "@media (min-width: ".toList ++ width ++ [')']

/-- The screens of the theme with their widths; those without a width are left out. -/
def screens (around : Surroundings) : List (Text × Text) :=
  (around.theme.table "screens").filterMap fun (name, value) =>
    (Value.entryText? value).map fun width => (name, width)

/-- A variant for each screen. -/
def screenVariants (around : Surroundings) : List Registration :=
  (screens around).map fun (name, width) => .template name [minWidth width]

/-- The variants for properties of the medium and for the direction of text. -/
def mediaVariants (_ : Surroundings) : List Registration :=
  [.template "motion-safe" ["@media (prefers-reduced-motion: no-preference)"],
    .template "motion-reduce" ["@media (prefers-reduced-motion: reduce)"],
    .template "print" ["@media print"],
    .template "portrait" ["@media (orientation: portrait)"],
    .template "landscape" ["@media (orientation: landscape)"],
    .template "rtl" ["&:where([dir=\x22rtl\x22], [dir=\x22rtl\x22] *)"],
    .template "ltr" ["&:where([dir=\x22ltr\x22], [dir=\x22ltr\x22] *)"]]

/-- A variant whose values are trimmed and must not be empty. -/
def trimmedVariant (name : Text) (values : ValueTable) (template : Text → Text) :
    Registration :=
  .variant name
    (.lookup
      { values := values
        render := fun value _ =>
          let value := Text.trim value
          if value.isEmpty then none else some (template value) })
    none

/-- The query for a feature: as it is written, as a declaration, or for a property
that only has a name. -/
def supportsQuery (value : Text) : Text :=
  if Text.startsWith value ['('] || Text.startsWith value "not " then value
  else if value.contains ':' then '(' :: value ++ [')']
  else '(' :: value ++ ": var(--tw))".toList

/-- The variant for features. -/
def supportsVariant (around : Surroundings) : List Registration :=
  [trimmedVariant "supports" (around.theme.table "supports") fun value =>
    "@supports ".toList ++ supportsQuery value]

/-- The variant for data attributes. -/
def dataVariant (around : Surroundings) : List Registration :=
  [trimmedVariant "data" (around.theme.table "data") fun value =>
    "&[data-".toList ++ value ++ [']']]

/-- The aria states that are known without the theme. -/
def ariaStates : List String :=
  ["busy", "checked", "disabled", "expanded", "hidden", "pressed", "readonly", "required",
    "selected"]

/-- The values of the variant for aria attributes: the known states, which have to be
true, and those of the theme. -/
def ariaValues (around : Surroundings) : ValueTable :=
  let known : ValueTable := ariaStates.map fun state =>
    (state.toList, .text (state.toList ++ "=\x22true\x22".toList))
  (around.theme.table "aria").foldl (fun table entry => Keyed.put entry.1 entry.2 table) known

/-- The variant for aria attributes. -/
def ariaVariant (around : Surroundings) : List Registration :=
  [trimmedVariant "aria" (ariaValues around) fun value => "&[aria-".toList ++ value ++ [']']]

end Builtin
end UtilityCss
