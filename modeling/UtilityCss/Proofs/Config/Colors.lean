import UtilityCss.Proofs.Config.Unasked
import UtilityCss.Theme.Basic

/-!
# Configurations that only add colors

Here every layer is that of the built-in preset or does nothing but extend the colors.  Such
configurations have the settings and the plugins of the preset, and the categories of the preset
that are data.  The colors of backgrounds are all colors, those that were added among them,
provided that no function that adds some asks for the colors of backgrounds.
-/

namespace UtilityCss

open Resolve

/-- The layer extends the colors, not from those of backgrounds, and states nothing else. -/
structure Layer.AddsColors (layer : Layer) : Prop where
  eq_extend : layer = { extend := layer.extend }
  colors : ∀ entry ∈ layer.extend, entry.1 = "colors"
  asksOnly : ∀ entry ∈ layer.extend, entry.2.query.AsksOnly (· ≠ "backgroundColor")

/-- The table of a category depends on that category alone. -/
theorem Theme.table_eq_of_member? {theme theme' : Theme} {category category' : Text}
    (h : theme.root.member? category = theme'.root.member? category') :
    theme.table category = theme'.table category' := by
  rw [Theme.table, Theme.table, h]

namespace Preset

/-- No category of the preset asks for the colors of backgrounds. -/
theorem asksOnly_theme : ∀ entry ∈ Config.basePreset.layer.theme,
    entry.2.query.AsksOnly (· ≠ "backgroundColor") := by
  have hone : ∀ {path : Text} (f : Option Data → Data),
      (∀ first ∈ (Path.read? path).bind List.head?, first ≠ "backgroundColor") →
      (Query.lookup path fun found => .answer (f found)).AsksOnly (· ≠ "backgroundColor") :=
    fun f hpath => ⟨hpath, fun _ => trivial⟩
  simp only [Config.basePreset, categories, List.map_cons, List.map_nil, List.forall_mem_cons]
  refine ⟨trivial, trivial, trivial, trivial, trivial, trivial, trivial, trivial, trivial, trivial,
    trivial, trivial, trivial, trivial, trivial, trivial, trivial, ?width, ?height, ?margin,
    ?padding, ?gap, ?inset, ?backgroundColor, ?textColor, ?placeholderColor, ?borderColor,
    fun _ h => absurd h List.not_mem_nil⟩
  case borderColor => exact ⟨by decide, fun _ => hone _ (by decide)⟩
  all_goals exact hone _ (by decide)

/-! ## What a background takes -/

/-- The categories of what a background takes besides its color. -/
def backgrounds : List Text := ["backgroundImage", "backgroundPosition", "backgroundSize"]

/-- They are data, and none of their entries has a name with a slash. -/
theorem data_of_mem_backgrounds : ∀ category ∈ backgrounds, ∃ d,
    Config.basePreset.layer.theme.lookup category = some (.data d) ∧
      ∀ name ∈ Keyed.keys (Theme.table ⟨.object [(category, d)]⟩ category), '/' ∉ name := by
  simp only [backgrounds, List.forall_mem_cons]
  exact ⟨⟨backgroundImage, rfl, by decide⟩, ⟨backgroundPosition, rfl, by decide⟩,
    ⟨backgroundSize, rfl, by decide⟩, fun _ h => absurd h List.not_mem_nil⟩

end Preset

namespace Config

/-- The layers of the configurations are that of the built-in preset and others that only add
colors. -/
structure AddColors (configs : List Config) : Prop where
  preset : basePreset.layer ∈ allLayers configs
  adds : ∀ layer ∈ allLayers configs, layer = basePreset.layer ∨ layer.AddsColors

namespace AddColors

variable {configs : List Config} (h : AddColors configs)

include h

/-! ## Settings and plugins -/

/-- No layer states more than categories. -/
theorem layer_eq : ∀ layer ∈ allLayers configs,
    layer = { theme := layer.theme, extend := layer.extend } := by
  intro layer hlayer
  rcases h.adds layer hlayer with rfl | hadds
  · rfl
  · rw [hadds.eq_extend]

theorem plugins_eq : (resolve configs).plugins = [] := by
  refine List.flatMap_eq_nil_iff.mpr fun layer hlayer => ?_
  rw [h.layer_eq layer (List.mem_reverse.mp hlayer)]

theorem settings_eq : (resolve configs).settings = settings [] := by
  have hnone : ∀ {α : Type} (stated : Layer → Option α),
      (∀ theme extend, stated { theme := theme, extend := extend } = none) →
      (allLayers configs).findSome? stated = none := by
    intro α stated hstated
    refine List.findSome?_eq_none_iff.mpr fun layer hlayer => ?_
    rw [h.layer_eq layer hlayer, hstated]
  have hchoose : ∀ layers : List Layer, (∀ layer ∈ layers, layer.choice = none) →
      ∀ enabled, (layers.map Layer.choice).foldl choose enabled = enabled := by
    intro layers
    induction layers with
    | nil => exact fun _ _ => rfl
    | cons layer rest ih =>
      intro hlayers enabled
      obtain ⟨hlayer, hrest⟩ := List.forall_mem_cons.mp hlayers
      rw [List.map_cons, List.foldl_cons, hlayer]
      exact ih hrest enabled
  show settings (allLayers configs) = settings []
  rw [settings, hnone Layer.separator fun _ _ => rfl, hnone Layer.lead fun _ _ => rfl,
    hnone Layer.important fun _ _ => rfl, hnone Layer.darkMode fun _ _ => rfl,
    hchoose _ fun layer hlayer => by rw [h.layer_eq layer (List.mem_reverse.mp hlayer)]]
  rfl

/-! ## Categories -/

variable {c : Text}

theorem base?_eq : base? (allLayers configs) c = basePreset.layer.theme.lookup c := by
  have hlayer : ∀ layer ∈ allLayers configs, ∀ value, layer.theme.lookup c = some value →
      layer = basePreset.layer := by
    intro layer hlayer value hvalue
    refine (h.adds layer hlayer).resolve_right fun hadds => ?_
    rw [hadds.eq_extend] at hvalue
    cases hvalue
  cases hbase : base? (allLayers configs) c with
  | none => exact (List.findSome?_eq_none_iff.mp hbase _ h.preset).symm
  | some value =>
    obtain ⟨layer, hmem, hvalue⟩ := List.exists_of_findSome?_eq_some hbase
    rw [← hlayer layer hmem value hvalue, hvalue]

/-- A category other than the colors is that of the preset. -/
theorem lookup_categories_eq (hc : c ≠ "colors") :
    (categories (allLayers configs)).lookup c = basePreset.layer.theme.lookup c := by
  have hadditions : additions (allLayers configs) c = [] := by
    refine List.flatMap_eq_nil_iff.mpr fun layer hlayer => ?_
    rw [List.map_eq_nil_iff, List.filter_eq_nil_iff]
    intro entry hentry
    rcases h.adds layer (List.mem_reverse.mp hlayer) with rfl | hadds
    · cases hentry
    · rw [hadds.colors entry hentry, decide_eq_true_iff]
      exact fun heq => hc heq.symm
  rw [lookup_categories, if_pos hadditions, h.base?_eq]

theorem unasked_backgroundColor : Unasked (categories (allLayers configs)) "backgroundColor" := by
  refine unasked_categories fun layer hlayer entry hentry => ?_
  rcases h.adds layer hlayer with rfl | hadds
  · exact Preset.asksOnly_theme entry ((List.mem_append.mp hentry).resolve_right List.not_mem_nil)
  · rw [hadds.eq_extend] at hentry
    exact hadds.asksOnly entry hentry

/-- The colors of backgrounds are the colors. -/
theorem member?_backgroundColor : (resolve configs).theme.member? "backgroundColor" =
    (resolve configs).theme.member? "colors" := by
  have htable : (categories (allLayers configs)).lookup ("backgroundColor" : Text) =
      some (Preset.same "colors") := h.lookup_categories_eq (by decide)
  have hcolors : (resolve configs).theme.member? "colors" ≠ none := by
    have hpieces : pieces (allLayers configs) "colors" ≠ [] := by
      rw [pieces, h.base?_eq]
      exact List.cons_ne_nil _ _
    obtain ⟨category, hcategory⟩ := exists_category hpieces
    show (theme _).member? "colors" ≠ none
    rw [member?_theme]
    exact keptAfter_ne_none hcategory [] (Keyed.mem_keys_of_lookup hcategory)
  obtain ⟨d, hd⟩ := Option.ne_none_iff_exists'.mp hcolors
  refine (member?_theme_of_unasked h.unasked_backgroundColor htable).trans ?_
  rw [hd]
  show some ((((resolve configs).theme.member? "colors").bind fun d => Path.walk d []).getD
    .null) = some d
  rw [hd]
  rfl

/-- What a background takes besides its color has no name with a slash. -/
theorem lookup_background {category name : Text} (hcategory : category ∈ Preset.backgrounds)
    (hname : '/' ∈ name) : (Theme.table ⟨(resolve configs).theme⟩ category).lookup name = none := by
  obtain ⟨d, hd, hnames⟩ := Preset.data_of_mem_backgrounds category hcategory
  have hne : category ≠ "colors" := by
    rintro rfl
    exact absurd hcategory (by decide)
  have hmember : (resolve configs).theme.member? category =
      (Data.object [(category, d)]).member? category := by
    refine (member?_theme_of_answer ((h.lookup_categories_eq hne).trans hd) rfl).trans ?_
    rw [Data.member?, Data.members, List.lookup_cons, beq_self_eq_true]
  have htable : Theme.table ⟨(resolve configs).theme⟩ category =
      Theme.table ⟨.object [(category, d)]⟩ category := Theme.table_eq_of_member? hmember
  rw [htable, Keyed.lookup_eq_none_iff_not_mem_keys]
  exact fun hmem => hnames name hmem hname

end AddColors

/-! ## Data -/

/-- The built-in preset with more colors. -/
def withColors (colors : Data) : Config := ⟨{ extend := [("colors", .data colors)] }, none, []⟩

theorem addColors_withColors (colors : Data) : AddColors [withColors colors] where
  preset := List.mem_cons_of_mem _ (List.mem_singleton_self _)
  adds layer hlayer := by
    rcases List.mem_cons.mp hlayer with rfl | hlayer
    · exact .inr ⟨rfl, List.forall_mem_singleton.mpr rfl, List.forall_mem_singleton.mpr trivial⟩
    · exact .inl (List.mem_singleton.mp hlayer)

end Config
end UtilityCss
