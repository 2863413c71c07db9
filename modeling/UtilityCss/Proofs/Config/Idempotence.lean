import UtilityCss.Proofs.Config.Pieces

/-!
# Resolving what is resolved

A resolved configuration can be turned into a layer again, without presets and without
functions.  Each of its fields takes a way of its own through resolving: the theme is evaluated
category by category, plugins are collected, settings are taken from the first layer that states
them, and the enabled built-in plugins are replayed from all of them.

Two things have to hold for all that to end where it began.  The theme is an object in which no
category stands twice, or evaluating it would drop the later ones; and the enabled plugins
are a selection from the built-in ones in the built-in order, or replaying the choice
would put them in that order.  Every resolved configuration has both properties.
-/

namespace UtilityCss

namespace Keyed

variable {α : Type}

/-- Entries under new keys are appended one after the other. -/
theorem foldl_define_of_distinct : ∀ (entries table : List (Text × α)),
    Distinct (table ++ entries) →
    entries.foldl (fun table entry =>
      if has entry.1 table then table else put entry.1 entry.2 table) table = table ++ entries
  | [], table, _ => (List.append_nil table).symm
  | (key, value) :: rest, table, hdistinct => by
    have hfresh : table.lookup key = none := by
      rw [lookup_eq_none_iff_not_mem_keys]
      rw [Distinct, keys, List.map_append, List.nodup_append] at hdistinct
      exact fun hkey => hdistinct.2.2 key hkey key List.mem_cons_self rfl
    have hstep : table ++ (key, value) :: rest = table ++ [(key, value)] ++ rest := by simp
    rw [hstep] at hdistinct ⊢
    rw [List.foldl_cons, if_neg (by simp [has, hfresh]), put_eq_append value hfresh]
    exact foldl_define_of_distinct rest _ hdistinct

end Keyed

namespace Resolve

/-! ## Themes without functions -/

/-- The categories of a theme that is data. -/
def ofData (members : List (Text × Data)) : Categories :=
  members.map fun (key, value) => (key, .data value)

theorem keys_ofData (members : List (Text × Data)) :
    Keyed.keys (ofData members) = Keyed.keys members := by
  simp [Keyed.keys, ofData]

theorem distinct_ofData {members : List (Text × Data)} (h : Keyed.Distinct members) :
    Keyed.Distinct (ofData members) := by
  rw [Keyed.Distinct, keys_ofData]
  exact h

/-- Data come to themselves, one after the other. -/
theorem values_of_data {table : Categories} : ∀ {members : List (Text × Data)}
    {known : List (Text × Data)}, Keyed.Distinct members →
    (∀ entry ∈ members, table.lookup entry.1 = some (.data entry.2)) →
    (∀ entry ∈ members, known.lookup entry.1 = none) →
    values table (Keyed.keys members) known = members
  | [], _, _, _, _ => rfl
  | (key, value) :: rest, known, hdistinct, htable, hknown => by
    obtain ⟨hkey, hrest⟩ := List.nodup_cons.mp hdistinct
    have hvalue : value? table (table.length + 1) [] key known =
        (some value, Keyed.put key value known) := by
      unfold value?
      rw [hknown _ List.mem_cons_self, htable _ List.mem_cons_self]
      rfl
    have hfresh : ∀ entry ∈ rest, (Keyed.put key value known).lookup entry.1 = none := by
      intro entry hentry
      rw [Keyed.lookup_put_of_ne]
      · exact hknown entry (List.mem_cons_of_mem _ hentry)
      · rintro rfl
        exact hkey (List.mem_map.mpr ⟨entry, hentry, rfl⟩)
    have hvalues := values_of_data hrest
      (fun entry hentry => htable entry (List.mem_cons_of_mem _ hentry)) hfresh
    show values table (key :: Keyed.keys rest) known = _
    rw [values, hvalue]
    exact congrArg _ hvalues

theorem theme_ofData {members : List (Text × Data)} (h : Keyed.Distinct members) :
    theme (ofData members) = .object members := by
  rw [theme, keys_ofData]
  refine congrArg Data.object (values_of_data h ?_ fun _ _ => rfl)
  intro entry hentry
  exact Keyed.lookup_of_mem (distinct_ofData h) (List.mem_map_of_mem hentry)

/-- One layer of data without extensions has the categories that it defines. -/
theorem categories_ofData {layer : Layer} {members : List (Text × Data)}
    (h : Keyed.Distinct members) (htheme : layer.theme = ofData members)
    (hextend : layer.extend = []) : categories [layer] = ofData members := by
  have hextensions : extensions [layer] = [] := by
    simp [extensions, hextend]
  have hdefined : defined [layer] = ofData members := by
    rw [defined, List.foldl_cons, List.foldl_nil, htheme]
    exact Keyed.foldl_define_of_distinct (ofData members) [] (distinct_ofData h)
  rw [categories, hextensions, List.foldl_nil, hdefined]

/-! ## What every resolved configuration is -/

/-- The values come in the order of the names. -/
theorem keys_values_sublist {table : Categories} : ∀ {names : List Text}
    {known : List (Text × Data)}, (Keyed.keys (values table names known)).Sublist names
  | [], _ => .slnil
  | name :: rest, known => by
    rw [values]
    split
    · exact keys_values_sublist.cons_cons name
    · exact keys_values_sublist.cons name

/-- The built-in plugins that are enabled in the end are a selection from all of them, in the same
order. -/
theorem foldl_choose_selects (choices : List (Option PluginChoice)) :
    ∃ keep : Text → Bool, choices.foldl choose Builtin.names = Builtin.names.filter keep := by
  refine List.foldlRecOn choices choose
    (motive := fun enabled => ∃ keep : Text → Bool, enabled = Builtin.names.filter keep)
    ⟨fun _ => true, (List.filter_eq_self.mpr fun _ _ => rfl).symm⟩ ?_
  rintro enabled ⟨keep, henabled⟩ (_ | choice) -
  · exact ⟨keep, henabled⟩
  · exact ⟨fun name => choice.enables name (enabled.contains name), rfl⟩

end Resolve

/-- The theme is an object in which no category stands twice, and the enabled plugins are a
selection from the built-in ones. -/
structure ResolvedConfig.Settled (r : ResolvedConfig) : Prop where
  theme : ∃ members, r.theme = .object members ∧ Keyed.Distinct members
  enabled : ∃ keep : Text → Bool, r.settings.enabled = Builtin.names.filter keep

namespace Config

open Resolve

theorem settled_resolve (configs : List Config) : (resolve configs).Settled where
  theme := ⟨_, rfl, keys_values_sublist.nodup (distinct_categories _)⟩
  enabled := foldl_choose_selects _

/-- A settled configuration resolves to itself. -/
theorem resolve_toConfig {r : ResolvedConfig} (h : r.Settled) : resolve [r.toConfig] = r := by
  obtain ⟨⟨members, htheme, hdistinct⟩, keep, henabled⟩ := h
  obtain ⟨theme, plugins, settings⟩ := r
  obtain rfl : theme = .object members := htheme
  have hlayers : allLayers [(⟨.object members, plugins, settings⟩ : ResolvedConfig).toConfig] =
      [(⟨.object members, plugins, settings⟩ : ResolvedConfig).toConfig.layer] := rfl
  have hselected : choose Builtin.names (some (.only settings.enabled)) = settings.enabled := by
    rw [henabled]
    refine List.filter_congr fun name hname => ?_
    simp [PluginChoice.enables, List.mem_filter, hname]
  rw [resolve, hlayers, ofLayers, categories_ofData hdistinct rfl rfl, theme_ofData hdistinct]
  congr 1
  · exact List.append_nil plugins
  · exact congrArg (fun enabled => { settings with enabled := enabled }) hselected

/-- Resolving a resolved configuration gives it back: its categories and their order, its plugins
and their order, and every setting. -/
theorem resolve_idempotent (configs : List Config) :
    resolve [(resolve configs).toConfig] = resolve configs :=
  resolve_toConfig (settled_resolve configs)

end Config
end UtilityCss
