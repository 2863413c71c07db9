import UtilityCss.Config.Query
import UtilityCss.Registry.Spec

/-!
# Configurations

A configuration is a layer of settings on top of its presets.  Plugins belong to a
layer, and a plugin may ship a configuration of its own, whose settings count less
than those of the layer that declares the plugin and more than the presets'.
-/

namespace UtilityCss

/-- The settings of one layer.  What is absent is left to lower layers. -/
structure Layer where
  /-- Categories that replace those of lower layers. -/
  theme : List (Text × ThemeValue) := []
  /-- Categories that extend those of lower layers. -/
  extend : List (Text × ThemeValue) := []
  plugins : List Plugin := []
  separator : Option Text := none
  /-- What the names of utilities begin with. -/
  lead : Option Text := none
  important : Option Important := none
  darkMode : Option DarkMode := none
  choice : Option PluginChoice := none

/-- A layer with its presets and with the configurations that its plugins ship. -/
structure Config where
  layer : Layer
  /-- The presets, the last one counting most; without any statement the built-in
  preset is meant. -/
  presets : Option (List Config)
  /-- What the plugins of the layer ship, in the order of the plugins. -/
  shipped : List Config

namespace Config

/-- The configuration that states nothing. -/
def empty : Config := ⟨{}, none, []⟩

mutual

/-- The layer of a configuration, followed by those its plugins ship. -/
def ownLayers : Config → List Layer
  | ⟨layer, _, shipped⟩ => layer :: shippedLayers shipped

/-- The layers that plugins ship. -/
def shippedLayers : List Config → List Layer
  | [] => []
  | c :: rest => ownLayers c ++ shippedLayers rest

end

mutual

/-- The layers of a configuration, the one that counts most first.  `base` stands
for the layers of the built-in preset. -/
def layers (base : List Layer) : Config → List Layer
  | ⟨layer, none, shipped⟩ => (layer :: shippedLayers shipped) ++ base
  | ⟨layer, some presets, shipped⟩ =>
    (layer :: shippedLayers shipped) ++ presetLayers base presets

/-- The layers of presets, those of the last preset first. -/
def presetLayers (base : List Layer) : List Config → List Layer
  | [] => []
  | c :: rest => presetLayers base rest ++ layers base c

end

end Config
end UtilityCss
