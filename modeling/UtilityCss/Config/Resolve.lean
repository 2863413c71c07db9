import UtilityCss.Config.Basic
import UtilityCss.Config.Preset
import UtilityCss.Builtin.Names

/-!
# Resolving configurations

The layers of a configuration are merged into one.  A category comes from the
layer that counts most among those that define it, with the extensions of all
layers merged over it, and a setting from the layer that counts most among those
that state it.

## Categories that depend on one another

Categories that are functions are evaluated on demand, each of them once.  While a
category is being evaluated, asking for it again has no answer; so the depth of
the evaluation is bounded by the number of categories, which is what the recursion
runs on.
-/

namespace UtilityCss

/-- A configuration with every layer merged and every category evaluated. -/
structure ResolvedConfig where
  theme : Data
  /-- The plugins, those of the layer that counts least first. -/
  plugins : List Plugin
  settings : Settings

namespace Resolve

/-- The categories being merged. -/
abbrev Categories := List (Text × ThemeValue)

/-- The categories that layers define; the first layer to define one decides. -/
def defined (layers : List Layer) : Categories :=
  layers.foldl
    (fun table layer =>
      layer.theme.foldl
        (fun table entry =>
          if Keyed.has entry.1 table then table else Keyed.put entry.1 entry.2 table)
        table)
    []

/-- The extensions of each category, the layer that counts least first. -/
def extensions (layers : List Layer) : List (Text × List ThemeValue) :=
  layers.reverse.foldl
    (fun table layer =>
      layer.extend.foldl
        (fun table entry =>
          Keyed.put entry.1 ((table.lookup entry.1).getD [] ++ [entry.2]) table)
        table)
    []

/-- The categories with their extensions. -/
def categories (layers : List Layer) : Categories :=
  (extensions layers).foldl
    (fun table entry =>
      Keyed.put entry.1 (.merged ((table.lookup entry.1).toList ++ entry.2)) table)
    (defined layers)

/-- The value of a category.  `active` are the categories under evaluation, and the
state holds the values of those that have been evaluated. -/
def value? (table : Categories) :
    Nat → List Text → Text → List (Text × Data) → Option Data × List (Text × Data)
  | 0, _, _, known => (none, known)
  | fuel + 1, active, name, known =>
    match known.lookup name with
    | some value => (some value, known)
    | none =>
      match table.lookup name with
      | none => (none, known)
      | some category =>
        if name ∈ active then (none, known)
        else
          let answerTo (path : Text) (known : List (Text × Data)) :=
            match Path.read? path with
            | some (first :: rest) =>
              let (found, known) := value? table fuel (name :: active) first known
              (found.bind fun d => Path.walk d rest, known)
            | _ => (none, known)
          let (value, known) := category.query.run answerTo known
          (some value, Keyed.put name value known)

/-- The values of categories, evaluated one after the other. -/
def values (table : Categories) : List Text → List (Text × Data) → List (Text × Data)
  | [], _ => []
  | name :: rest, known =>
    match value? table (table.length + 1) [] name known with
    | (some value, known) => (name, value) :: values table rest known
    | (none, known) => values table rest known

/-- The theme of merged categories. -/
def theme (table : Categories) : Data := .object (values table (Keyed.keys table) [])

/-- The enabled built-in plugins after one more layer has been heard. -/
def choose (enabled : List Text) : Option PluginChoice → List Text
  | none => enabled
  | some choice =>
    Builtin.names.filter fun name => choice.enables name (enabled.contains name)

/-- The settings of layers. -/
def settings (layers : List Layer) : Settings where
  separator := (layers.findSome? Layer.separator).getD [':']
  lead := (layers.findSome? Layer.lead).getD []
  important := (layers.findSome? Layer.important).getD (.all false)
  darkMode := (layers.findSome? Layer.darkMode).getD .media
  enabled := (layers.reverse.map Layer.choice).foldl choose Builtin.names

/-- Merges layers, the one that counts most first. -/
def ofLayers (layers : List Layer) : ResolvedConfig where
  theme := theme (categories layers)
  plugins := layers.reverse.flatMap Layer.plugins
  settings := settings layers

end Resolve

namespace Config

/-- The layers of configurations, the first of which counts most; without any, those
of the built-in preset alone. -/
def allLayers (configs : List Config) : List Layer :=
  (if configs.isEmpty then [Config.empty] else configs).flatMap
    (layers (ownLayers Config.basePreset))

/-- Merges configurations, the first of which counts most. -/
def resolve (configs : List Config) : ResolvedConfig := Resolve.ofLayers (allLayers configs)

end Config

namespace ResolvedConfig

/-- The resolved configuration as one that can be resolved again. -/
def toConfig (r : ResolvedConfig) : Config where
  layer :=
    { theme := r.theme.members.map fun (key, value) => (key, .data value)
      plugins := r.plugins
      separator := some r.settings.separator
      lead := some r.settings.lead
      important := some r.settings.important
      darkMode := some r.settings.darkMode
      choice := some (.only r.settings.enabled) }
  presets := some []
  shipped := []

/-- Do two resolved configurations agree in everything that can be compared: the
theme, the names of the plugins and the settings? -/
def agrees (r s : ResolvedConfig) : Bool :=
  r.theme = s.theme && r.plugins.map Plugin.name = s.plugins.map Plugin.name
    && r.settings = s.settings

/-- What plugins see of the configuration. -/
def surroundings (r : ResolvedConfig) : Surroundings := ⟨⟨r.theme⟩, r.settings⟩

end ResolvedConfig
end UtilityCss
