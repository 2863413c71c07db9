import UtilityCss.Config.Settings
import UtilityCss.Style.Tree
import UtilityCss.Theme.Basic

/-!
# Utilities, variants and plugins

A plugin sees the theme and the settings and answers with a list of
registrations.  A utility is registered either with a fixed style tree, reached
by its exact name, or as a lookup: a table of values together with a function
that renders a value.  Variants come in the same two sorts, with templates in
place of trees.
-/

namespace UtilityCss

/-- How a utility behaves. -/
structure Flags where
  /-- May its values be negated by a leading hyphen? -/
  negative : Bool
  /-- Does the bare name not stand for the entry `DEFAULT`? -/
  filterDefault : Bool
  /-- Does it render colors, so that modifiers are opacities? -/
  color : Bool
  /-- Is it reached only through the configured beginning of names? -/
  respectsLead : Bool
  /-- Does it follow the setting for importance? -/
  respectsImportant : Bool
  deriving DecidableEq, Repr

namespace Flags

/-- The flags of an ordinary utility. -/
def standard : Flags := ⟨false, false, false, true, true⟩

/-- The flags of a component, which the setting for importance does not affect. -/
def component : Flags := { standard with respectsImportant := false }

end Flags

/-- What the function of a lookup utility is told besides the value. -/
structure RenderInfo where
  /-- The modifier, when the value was found without it. -/
  modifier : Option Text
  /-- The kind that accepted a bracketed value. -/
  kind : Option Value.Kind
  /-- The theme entry that the value is from. -/
  entry : Option Data
  theme : Theme

/-- A utility that takes values. -/
structure LookupUtility where
  values : ValueTable
  /-- The kinds of bracketed values it takes, in order of preference. -/
  kinds : List Value.Kind
  flags : Flags
  /-- The style of a value; an empty tree rejects the value. -/
  render : Text → RenderInfo → StyleTree
  /-- What is done to the style of every value. -/
  post : Option (StyleTree → StyleTree)

/-- How a utility makes its style. -/
inductive UtilityRule where
  | fixed (tree : StyleTree) (flags : Flags)
  | lookup (utility : LookupUtility)

/-- A registered utility. -/
structure UtilitySpec where
  /-- The plugin that registered it. -/
  plugin : Text
  rule : UtilityRule

namespace UtilitySpec

/-- The flags of the utility. -/
def flags (spec : UtilitySpec) : Flags :=
  match spec.rule with
  | .fixed _ flags => flags
  | .lookup utility => utility.flags

/-- Does the utility take values? -/
def isLookup (spec : UtilitySpec) : Bool :=
  match spec.rule with
  | .fixed .. => false
  | .lookup _ => true

end UtilitySpec

/-- A variant that takes values. -/
structure LookupVariant where
  values : ValueTable
  /-- The template of a value and a modifier, none to reject the value. -/
  render : Text → Option Text → Option Text

/-- How a variant makes its templates. -/
inductive VariantRule where
  | fixed (templates : List Text)
  | lookup (variant : LookupVariant)

/-- A registered variant. -/
structure VariantSpec where
  /-- The plugin that registered it. -/
  plugin : Text
  rule : VariantRule
  /-- What is done to a style before it is wrapped. -/
  post : Option (StyleTree → StyleTree)

namespace VariantSpec

/-- Does the variant take values? -/
def isLookup (spec : VariantSpec) : Bool :=
  match spec.rule with
  | .fixed _ => false
  | .lookup _ => true

end VariantSpec

/-- Something that a plugin registers. -/
inductive Registration where
  /-- Global styles. -/
  | base (tree : StyleTree)
  /-- A utility for every class in the selectors of a tree. -/
  | classes (tree : StyleTree) (flags : Flags)
  | utility (name : Text) (utility : LookupUtility)
  | variant (name : Text) (rule : VariantRule) (post : Option (StyleTree → StyleTree))

/-- The options of a lookup utility. -/
structure LookupOptions where
  values : ValueTable := []
  /-- The kinds of bracketed values; no kinds stand for any value. -/
  kinds : List Value.Kind := []
  flags : Flags := .standard
  post : Option (StyleTree → StyleTree) := none

namespace Registration

/-- Custom properties with their defaults, for every element and for the backdrop. -/
def defaults (properties : StyleTree) : Registration :=
  .base [("*, ::before, ::after", .tree properties), ("::backdrop", .tree properties)]

/-- A lookup utility.  If it takes colors, its modifiers are opacities. -/
def lookup (name : Text) (options : LookupOptions) (render : Text → RenderInfo → StyleTree) :
    Registration :=
  .utility name
    { values := options.values
      kinds := if options.kinds.isEmpty then [.any] else options.kinds
      flags :=
        { options.flags with color := options.flags.color || options.kinds.contains .color }
      render := render
      post := options.post }

/-- A variant with fixed templates and nothing done to the style. -/
def template (name : Text) (templates : List Text) : Registration :=
  .variant name (.fixed templates) none

end Registration

/-- What a plugin sees. -/
structure Surroundings where
  theme : Theme
  settings : Settings

/-- A plugin: a name, and what it registers. -/
structure Plugin where
  name : Text
  register : Surroundings → List Registration

end UtilityCss
