import UtilityCss.Proofs.Config.Demand
import UtilityCss.Proofs.Config.Layerwise

/-!
# Data handed over as functions

Data are merged when layers are.  A function that answers with them without asking for anything
defers the merge: the category becomes a function as a whole, and what it comes to is found when
somebody asks for it, which may be in the middle of evaluating others, and in a circle of others.

Nothing comes of it.  A category is evaluated as the query that it is (`ThemeValue.query`), and the
query of merged pieces does not depend on which of them are data.  So a layer may as well consist of
functions alone (`Layer.asFunctions`), and that is a form which forgets what has been deferred.
-/

namespace UtilityCss

namespace ThemeValue

variable {value value' : ThemeValue}

/-- The value as a function: data become the one that always answers with them. -/
def asFunction (value : ThemeValue) : ThemeValue := .computed value.query

/-- The same value, or data and the function that always answers with them. -/
inductive Deferred : ThemeValue → ThemeValue → Prop where
  | same (value : ThemeValue) : Deferred value value
  | deferred (d : Data) : Deferred (.data d) (.computed (.answer d))

theorem Deferred.asFunction_eq (h : value.Deferred value') :
    value'.asFunction = value.asFunction := by
  cases h <;> rfl

end ThemeValue

namespace Layer

variable {layer layer' : Layer}

/-- The same entry, or one of data and the function in its place. -/
def EntryDeferred (entry entry' : Text × ThemeValue) : Prop :=
  entry'.1 = entry.1 ∧ entry.2.Deferred entry'.2

/-- Some entries of the layer that are data have become functions, and nothing else is different. -/
structure Deferred (layer layer' : Layer) : Prop where
  theme : List.Forall₂ EntryDeferred layer.theme layer'.theme
  extend : List.Forall₂ EntryDeferred layer.extend layer'.extend
  others : layer' = { layer with theme := layer'.theme, extend := layer'.extend }

/-- The layer with functions for all entries. -/
def asFunctions (layer : Layer) : Layer :=
  { layer with
    theme := Keyed.mapValues ThemeValue.asFunction layer.theme
    extend := Keyed.mapValues ThemeValue.asFunction layer.extend }

theorem mapValues_asFunction {entries entries' : List (Text × ThemeValue)}
    (h : List.Forall₂ EntryDeferred entries entries') :
    Keyed.mapValues ThemeValue.asFunction entries' =
      Keyed.mapValues ThemeValue.asFunction entries := by
  induction h with
  | nil => rfl
  | @cons entry entry' rest rest' hentry _ ih =>
    have hsame : (entry'.1, entry'.2.asFunction) = (entry.1, entry.2.asFunction) :=
      Prod.ext hentry.1 hentry.2.asFunction_eq
    exact congrArg₂ List.cons hsame ih

theorem Deferred.refl (layer : Layer) : layer.Deferred layer :=
  ⟨List.forall₂_same.mpr fun _ _ => ⟨rfl, .same _⟩, List.forall₂_same.mpr fun _ _ => ⟨rfl, .same _⟩,
    rfl⟩

theorem Deferred.asFunctions_eq (h : layer.Deferred layer') :
    layer'.asFunctions = layer.asFunctions := by
  rw [asFunctions, asFunctions, mapValues_asFunction h.theme, mapValues_asFunction h.extend,
    h.others]

theorem map_asFunctions {layers layers' : List Layer} (h : List.Forall₂ Deferred layers layers') :
    layers'.map asFunctions = layers.map asFunctions := by
  induction h with
  | nil => rfl
  | cons hlayer _ ih => exact congrArg₂ List.cons hlayer.asFunctions_eq ih

end Layer

namespace Resolve

variable {table table' : Categories} (layers : List Layer) (c : Text)

/-! ## Tables with the same queries -/

/-- Evaluation sees nothing of a category but its query. -/
theorem value?_congr
    (h : ∀ c, (table'.lookup c).map ThemeValue.query = (table.lookup c).map ThemeValue.query) :
    ∀ fuel, value? table' fuel = value? table fuel
  | 0 => rfl
  | fuel + 1 => by
    funext active name known
    have hname := h name
    rw [value?, value?, value?_congr h fuel]
    cases htable : table.lookup name with
    | none =>
      rw [htable, Option.map_none, Option.map_eq_none_iff] at hname
      rw [hname]
    | some category =>
      rw [htable, Option.map_some] at hname
      obtain ⟨category', hcategory', hquery⟩ := Option.map_eq_some_iff.mp hname
      simp only [hcategory', hquery]

theorem values_congr (hlength : table'.length = table.length)
    (h : ∀ fuel, value? table' fuel = value? table fuel) :
    ∀ (names : List Text) (known : List (Text × Data)),
      values table' names known = values table names known
  | [], _ => rfl
  | name :: rest, known => by
    rw [values, values, hlength, h]
    split <;> rw [values_congr hlength h rest]

theorem theme_congr (hkeys : Keyed.keys table' = Keyed.keys table)
    (h : ∀ c, (table'.lookup c).map ThemeValue.query = (table.lookup c).map ThemeValue.query) :
    theme table' = theme table := by
  have hlength : table'.length = table.length := by
    simpa [Keyed.keys] using congrArg List.length hkeys
  rw [theme, theme, hkeys, values_congr hlength (value?_congr h)]

/-! ## Layers of functions -/

theorem flatMap_theme_asFunctions : (layers.map Layer.asFunctions).flatMap Layer.theme =
    Keyed.mapValues ThemeValue.asFunction (layers.flatMap Layer.theme) := by
  rw [List.flatMap_map, Keyed.mapValues, List.map_flatMap]
  rfl

theorem flatMap_extend_asFunctions :
    (layers.map Layer.asFunctions).reverse.flatMap Layer.extend =
      Keyed.mapValues ThemeValue.asFunction (layers.reverse.flatMap Layer.extend) := by
  rw [← List.map_reverse, List.flatMap_map, Keyed.mapValues, List.map_flatMap]
  rfl

theorem pieces_asFunctions : pieces (layers.map Layer.asFunctions) c =
    (pieces layers c).map ThemeValue.asFunction := by
  rw [pieces, pieces, ← lookup_flatMap_theme, ← lookup_flatMap_theme, ← filter_extend,
    ← filter_extend, flatMap_theme_asFunctions, flatMap_extend_asFunctions, Keyed.lookup_mapValues,
    Keyed.filter_mapValues, List.map_append]
  cases (layers.flatMap Layer.theme).lookup c <;> rfl

theorem keys_asFunctions : Keyed.keys (categories (layers.map Layer.asFunctions)) =
    Keyed.keys (categories layers) := by
  rw [keys_categories, keys_categories, flatMap_theme_asFunctions, flatMap_extend_asFunctions,
    Keyed.keys_mapValues, Keyed.keys_mapValues]

theorem theme_asFunctions : theme (categories (layers.map Layer.asFunctions)) =
    theme (categories layers) := by
  refine theme_congr (keys_asFunctions layers) fun c => ?_
  have hqueries : ((pieces layers c).map ThemeValue.asFunction).map ThemeValue.query =
      (pieces layers c).map ThemeValue.query := List.map_map
  rw [map_query_categories, map_query_categories, pieces_asFunctions, hqueries]
  simp only [List.map_eq_nil_iff]

/-- Layers of functions come to the same as layers of data. -/
theorem ofLayers_asFunctions : ofLayers (layers.map Layer.asFunctions) = ofLayers layers := by
  have hplugins : (layers.map Layer.asFunctions).reverse.flatMap Layer.plugins =
      layers.reverse.flatMap Layer.plugins := by
    rw [← List.map_reverse, List.flatMap_map]
    rfl
  have hsettings : settings (layers.map Layer.asFunctions) = settings layers := by
    simp only [settings, List.findSome?_map, ← List.map_reverse, List.map_map]
    rfl
  rw [ofLayers, ofLayers, theme_asFunctions, hplugins, hsettings]

end Resolve

/-- In the layers of the configurations some entries that are data have become functions. -/
abbrev ConfigsDeferred : List Config → List Config → Prop := ConfigsLayerwise Layer.Deferred

namespace Config

open Resolve

/-- Handing over data as functions that answer with them changes nothing, whatever other functions
ask for them, extend them or ask for one another. -/
theorem resolve_deferred {configs configs' : List Config} (h : ConfigsDeferred configs configs') :
    resolve configs' = resolve configs := by
  have hlayers : (allLayers configs').map Layer.asFunctions =
      (allLayers configs).map Layer.asFunctions :=
    Layer.map_asFunctions (h.allLayers (.refl _) (.refl _))
  rw [resolve, resolve, ← ofLayers_asFunctions, hlayers, ofLayers_asFunctions]

/-- A category of the user's, one of a preset's and an extension that a plugin ships become functions.
The first is extended by a function that asks for one of two that ask for each other, of which the
second falls back on the category of the preset. -/
theorem resolve_deferred_circle :
    let first : Data := .object [(['x'], .text ['1'])]
    let second : Data := .object [(['y'], .text ['2'])]
    let more : ThemeValue :=
      .computed (.lookup ['f'] fun found => .answer (.object [(['z'], found.getD .null)]))
    let asking : ThemeValue := .computed (Query.theme ['g'])
    let asked : ThemeValue :=
      .computed (.lookup ['f'] fun found =>
        match found with
        | some d => .answer d
        | none => Query.theme ['b'])
    let config (a shipped preset : ThemeValue) : Config :=
      ⟨{ theme := [(['a'], a), (['f'], asking), (['g'], asked)], extend := [(['a'], more)] },
        some [⟨{ theme := [(['b'], preset)] }, some [], []⟩],
        [⟨{ extend := [(['a'], shipped)] }, none, []⟩]⟩
    let configs := [config (.data first) (.data second) (.data (.text ['3']))]
    let configs' := [config (.computed (.answer first)) (.computed (.answer second))
      (.computed (.answer (.text ['3'])))]
    ConfigsDeferred configs configs' ∧ resolve configs' = resolve configs ∧
      (resolve configs).theme.member? ['a'] =
        some (.object [(['x'], .text ['1']), (['y'], .text ['2']), (['z'], .text ['3'])]) := by
  intro first second more asking asked config configs configs'
  have hpreset : Layer.Deferred { theme := [(['b'], .data (.text ['3']))] }
      { theme := [(['b'], .computed (.answer (.text ['3'])))] } :=
    ⟨.cons ⟨rfl, .deferred _⟩ .nil, .nil, rfl⟩
  have hshipped : Layer.Deferred { extend := [(['a'], .data second)] }
      { extend := [(['a'], .computed (.answer second))] } :=
    ⟨.nil, .cons ⟨rfl, .deferred _⟩ .nil, rfl⟩
  have hdeferred : ConfigsDeferred configs configs' := by
    refine .cons (.presets ⟨?_, ?_, rfl⟩ ?_ ?_) .nil
    · exact .cons ⟨rfl, .deferred _⟩ (.cons ⟨rfl, .same _⟩ (.cons ⟨rfl, .same _⟩ .nil))
    · exact .cons ⟨rfl, .same _⟩ .nil
    · exact .cons (.presets hpreset .nil .nil) .nil
    · exact .cons (.builtin hshipped .nil) .nil
  exact ⟨hdeferred, resolve_deferred hdeferred, by decide⟩

end Config
end UtilityCss
