import UtilityCss.Registry.Spec

/-!
# Declaring values

Most built-in utilities set one or several properties to the value they are given.
What remains to be said about them is a table: the theme category their values
come from, the kinds of bracketed values they take, and under each name the
properties they set.
-/

namespace UtilityCss
namespace Builtin

/-- Sets each of the properties to the value. -/
def declare (properties : List String) (value : Text) (_ : RenderInfo) : StyleTree :=
  properties.map fun property => (property.toList, .scalar value)

/-- A tree of declarations. -/
def declarations (entries : List (String × String)) : StyleTree :=
  entries.map fun (property, value) => (property.toList, .scalar value.toList)

/-- A tree of trees. -/
def rules (entries : List (String × StyleTree)) : StyleTree :=
  entries.map fun (selector, tree) => (selector.toList, .tree tree)

/-- The options of utilities with the values of a theme category. -/
def valuesOf (around : Surroundings) (category : Text) (kinds : List Value.Kind) :
    LookupOptions :=
  { values := around.theme.table category, kinds := kinds }

/-- The same options, with negative values allowed. -/
def signed (options : LookupOptions) : LookupOptions :=
  { options with flags := { options.flags with negative := true } }

/-- The same options, with the bare name not standing for the entry `DEFAULT`. -/
def named (options : LookupOptions) : LookupOptions :=
  { options with flags := { options.flags with filterDefault := true } }

/-- Utilities that share their options and differ in the properties they set. -/
def lookups (options : LookupOptions) (utilities : List (String × List String)) :
    List Registration :=
  utilities.map fun (name, properties) => .lookup name.toList options (declare properties)

/-- The kinds of sizes. -/
def sizeKinds : List Value.Kind := [.length, .percentage, .any]

/-- The kinds of colors. -/
def colorKinds : List Value.Kind := [.color, .any]

end Builtin
end UtilityCss
