import Mathlib.Data.List.Forall2
import UtilityCss.Config.Resolve

/-!
# Configurations that correspond layer by layer

Two configurations of the same shape, whose layers correspond one by one, have corresponding lists
of layers, because the order of layers is a matter of the shape alone.

A configuration without presets builds on the built-in preset.  Spelled out, a preset that
corresponds to the built-in one may stand in its place.
-/

namespace UtilityCss

mutual

/-- The layers of the configurations are related one by one. -/
inductive Config.Layerwise (R : Layer → Layer → Prop) : Config → Config → Prop where
  | builtin {layer layer' : Layer} {shipped shipped' : List Config} :
    R layer layer' → ConfigsLayerwise R shipped shipped' →
    Config.Layerwise R ⟨layer, none, shipped⟩ ⟨layer', none, shipped'⟩
  /-- The built-in preset is spelled out. -/
  | spelled {layer layer' : Layer} {preset' : Config} {shipped shipped' : List Config} :
    R layer layer' → Config.Layerwise R Config.basePreset preset' →
    ConfigsLayerwise R shipped shipped' →
    Config.Layerwise R ⟨layer, none, shipped⟩ ⟨layer', some [preset'], shipped'⟩
  | presets {layer layer' : Layer} {presets presets' shipped shipped' : List Config} :
    R layer layer' → ConfigsLayerwise R presets presets' →
    ConfigsLayerwise R shipped shipped' →
    Config.Layerwise R ⟨layer, some presets, shipped⟩ ⟨layer', some presets', shipped'⟩

/-- The layers of the configurations are related one by one, configuration by configuration. -/
inductive ConfigsLayerwise (R : Layer → Layer → Prop) : List Config → List Config → Prop where
  | nil : ConfigsLayerwise R [] []
  | cons {c c' : Config} {rest rest' : List Config} :
    c.Layerwise R c' → ConfigsLayerwise R rest rest' →
    ConfigsLayerwise R (c :: rest) (c' :: rest')

end

variable {R : Layer → Layer → Prop} {cs cs' : List Config}

/-- The layers of the built-in preset. -/
abbrev Config.baseLayers : List Layer := Config.ownLayers Config.basePreset

mutual

theorem Config.Layerwise.ownLayers : ∀ {c c' : Config}, c.Layerwise R c' →
    List.Forall₂ R (Config.ownLayers c) (Config.ownLayers c')
  | _, _, .builtin hlayer hshipped => .cons hlayer hshipped.shippedLayers
  | _, _, .spelled hlayer _ hshipped => .cons hlayer hshipped.shippedLayers
  | _, _, .presets hlayer _ hshipped => .cons hlayer hshipped.shippedLayers

theorem ConfigsLayerwise.shippedLayers : ∀ {cs cs' : List Config}, ConfigsLayerwise R cs cs' →
    List.Forall₂ R (Config.shippedLayers cs) (Config.shippedLayers cs')
  | _, _, .nil => .nil
  | _, _, .cons hc hrest => List.rel_append hc.ownLayers hrest.shippedLayers

end

mutual

theorem Config.Layerwise.layers (hbase : R Config.basePreset.layer Config.basePreset.layer) :
    ∀ {c c' : Config}, c.Layerwise R c' →
      List.Forall₂ R (Config.layers Config.baseLayers c) (Config.layers Config.baseLayers c')
  | _, _, .builtin hlayer hshipped =>
    List.rel_append (.cons hlayer hshipped.shippedLayers) (.cons hbase .nil)
  | _, _, .spelled hlayer hpreset hshipped =>
    -- the built-in preset has no layers but its own
    List.rel_append (.cons hlayer hshipped.shippedLayers) (hpreset.layers hbase)
  | _, _, .presets hlayer hpresets hshipped =>
    List.rel_append (.cons hlayer hshipped.shippedLayers) (hpresets.presetLayers hbase)

theorem ConfigsLayerwise.presetLayers (hbase : R Config.basePreset.layer Config.basePreset.layer) :
    ∀ {cs cs' : List Config}, ConfigsLayerwise R cs cs' →
      List.Forall₂ R (Config.presetLayers Config.baseLayers cs)
        (Config.presetLayers Config.baseLayers cs')
  | _, _, .nil => .nil
  | _, _, .cons hc hrest => List.rel_append (hrest.presetLayers hbase) (hc.layers hbase)

end

variable (hbase : R Config.basePreset.layer Config.basePreset.layer)

include hbase

theorem ConfigsLayerwise.flatMap_layers (h : ConfigsLayerwise R cs cs') :
    List.Forall₂ R (cs.flatMap (Config.layers Config.baseLayers))
      (cs'.flatMap (Config.layers Config.baseLayers)) := by
  induction cs generalizing cs' with
  | nil =>
    cases h
    exact .nil
  | cons c rest ih =>
    cases h with
    | cons hc hrest => exact List.rel_append (hc.layers hbase) (ih hrest)

/-- All layers are related one by one, if those that are there in any case are related to
themselves. -/
theorem ConfigsLayerwise.allLayers (hempty : R {} {}) (h : ConfigsLayerwise R cs cs') :
    List.Forall₂ R (Config.allLayers cs) (Config.allLayers cs') := by
  cases h with
  | nil =>
    have hnothing : Config.empty.Layerwise R Config.empty := .builtin hempty .nil
    exact (ConfigsLayerwise.cons hnothing .nil).flatMap_layers hbase
  | cons hc hrest => exact (ConfigsLayerwise.cons hc hrest).flatMap_layers hbase

end UtilityCss
