import UtilityCss.Proofs.Style.Agreement
import UtilityCss.Registry.Basic

/-!
# Registries without repeated keys

A style tree is a list of entries, so a registry could hold trees in which a key stands
twice.  A registry is well-keyed if it holds none, and if what it does to trees does not make
such trees of others.  Registering a class nests and merges, and everything else is put into
the registry as it is, so a registry is well-keyed if what plugins register is.
-/

namespace UtilityCss

/-- The function makes well-keyed trees of well-keyed trees. -/
def KeepsKeys (f : StyleTree → StyleTree) : Prop :=
  ∀ tree, StyleTree.WellKeyed tree → StyleTree.WellKeyed (f tree)

/-- Whatever value it is given, the style of the utility is well-keyed. -/
structure LookupUtility.WellKeyed (u : LookupUtility) : Prop where
  render : ∀ text info, StyleTree.WellKeyed (u.render text info)
  post : ∀ post ∈ u.post, KeepsKeys post

/-- Every style of the utility is well-keyed. -/
def UtilitySpec.WellKeyed (spec : UtilitySpec) : Prop :=
  match spec.rule with
  | .fixed tree _ => StyleTree.WellKeyed tree
  | .lookup u => u.WellKeyed

/-- What the variant does to a style keeps it well-keyed. -/
def VariantSpec.WellKeyed (spec : VariantSpec) : Prop := ∀ post ∈ spec.post, KeepsKeys post

/-- All that is registered is well-keyed. -/
structure Registry.WellKeyed (registry : Registry) : Prop where
  utility : ∀ name, ∀ spec ∈ registry.utilities.specs name, spec.WellKeyed
  variant : ∀ name, ∀ spec ∈ registry.variants.specs name, spec.WellKeyed

/-- What is registered is well-keyed; nothing is asked of global styles. -/
def Registration.WellKeyed : Registration → Prop
  | .base _ => True
  | .classes tree _ => StyleTree.WellKeyed tree
  | .utility _ u => u.WellKeyed
  | .variant _ _ post => ∀ p ∈ post, KeepsKeys p

/-- Whatever the plugin sees, it registers nothing with repeated keys. -/
def Plugin.WellKeyed (plugin : Plugin) : Prop :=
  ∀ around, ∀ r ∈ plugin.register around, r.WellKeyed

/-- The specs under a name are those of an entry of the table. -/
theorem SpecTable.exists_entry_of_mem_specs {α : Type} {table : SpecTable α} {name : Text}
    {spec : α} (h : spec ∈ table.specs name) : ∃ entry ∈ table, spec ∈ entry.2 := by
  rw [SpecTable.specs] at h
  cases hlookup : table.lookup name with
  | none =>
    rw [hlookup] at h
    exact absurd h List.not_mem_nil
  | some specs =>
    rw [hlookup] at h
    exact ⟨_, Keyed.mem_of_lookup hlookup, h⟩

/-- A registry is well-keyed if everything in its tables is. -/
theorem Registry.wellKeyed_of_mem {registry : Registry}
    (hutilities : ∀ entry ∈ registry.utilities, ∀ spec ∈ entry.2, spec.WellKeyed)
    (hvariants : ∀ entry ∈ registry.variants, ∀ spec ∈ entry.2, spec.WellKeyed) :
    registry.WellKeyed := by
  refine ⟨fun name spec h => ?_, fun name spec h => ?_⟩
  · obtain ⟨entry, hentry, hspec⟩ := SpecTable.exists_entry_of_mem_specs h
    exact hutilities entry hentry spec hspec
  · obtain ⟨entry, hentry, hspec⟩ := SpecTable.exists_entry_of_mem_specs h
    exact hvariants entry hentry spec hspec

/-- A registry that holds a single lookup utility is well-keyed if that is. -/
theorem Registry.wellKeyed_of_lookup {name plugin : Text} {u : LookupUtility} (hu : u.WellKeyed) :
    Registry.WellKeyed ⟨[(name, [⟨plugin, .lookup u⟩])], [], []⟩ :=
  wellKeyed_of_mem (List.forall_mem_singleton.mpr (List.forall_mem_singleton.mpr hu)) fun _ h =>
    absurd h List.not_mem_nil

theorem Registry.wellKeyed_empty : Registry.empty.WellKeyed :=
  ⟨fun _ _ h => absurd h List.not_mem_nil, fun _ _ h => absurd h List.not_mem_nil⟩

/-! ## Classes of selectors -/

namespace Selector

open StyleTree (WellKeyed WellKeyedValue)

mutual

/-- The declarations of every class of a well-keyed tree are well-keyed. -/
theorem wellKeyed_of_mem_bodies : ∀ {outer : List Text} {tree : List (Text × StyleValue)},
    WellKeyed tree → ∀ c ∈ bodies outer tree, WellKeyed c.body
  | _, [], _, _, hc => absurd hc List.not_mem_nil
  | _, (_, _) :: _, ⟨_, hvalue, hrest⟩, c, hc => by
    rcases List.mem_append.mp hc with hc | hc
    · exact wellKeyed_of_mem_bodiesUnder hvalue c hc
    · exact wellKeyed_of_mem_bodies hrest c hc

theorem wellKeyed_of_mem_bodiesUnder : ∀ {outer : List Text} {key : Text} {value : StyleValue},
    WellKeyedValue value → ∀ c ∈ bodiesUnder outer key value, WellKeyed c.body
  | _, _, .scalar _, _, _, hc | _, _, .list _, _, _, hc => absurd hc List.not_mem_nil
  | outer, key, .tree body, hbody, c, hc => by
    rw [bodiesUnder] at hc
    split at hc
    · exact wellKeyed_of_mem_bodies hbody c hc
    · split at hc
      · exact wellKeyed_of_mem_bodies hbody c hc
      · obtain ⟨found, -, rfl⟩ := List.mem_map.mp hc
        exact hbody

end

end Selector

/-- A spec of a name, after one was added to that name or another. -/
theorem SpecTable.mem_specs_push {α : Type} {table : SpecTable α} {name other : Text}
    {spec own : α} (h : own ∈ specs (push table name spec) other) :
    own ∈ specs table other ∨ own = spec := by
  by_cases hname : other = name
  · rw [hname, specs_push_self] at h
    rcases List.mem_append.mp h with h | h
    · exact .inl (hname ▸ h)
    · exact .inr (List.mem_singleton.mp h)
  · rw [specs_push_of_ne _ hname] at h
    exact .inl h

namespace Registry
namespace Builder

/-- The merged trees of the classes of each name are well-keyed. -/
theorem wellKeyed_of_mem_grouped {found : List Selector.ClassBody}
    (hfound : ∀ c ∈ found, StyleTree.WellKeyed c.body) :
    ∀ entry ∈ grouped found, StyleTree.WellKeyed entry.2 := by
  suffices h : ∀ table : List (Text × StyleTree),
      (∀ entry ∈ table, StyleTree.WellKeyed entry.2) →
        ∀ entry ∈ found.foldl (fun table c => Keyed.put c.name
          (StyleTree.merge ((table.lookup c.name).getD []) c.nested) table) table,
          StyleTree.WellKeyed entry.2 from
    h [] fun _ hentry => absurd hentry List.not_mem_nil
  induction found with
  | nil => exact fun _ htable => htable
  | cons c rest ih =>
    intro table htable
    obtain ⟨hc, hrest⟩ := List.forall_mem_cons.mp hfound
    refine ih hrest _ fun entry hentry => ?_
    rcases Keyed.mem_put hentry with rfl | hentry
    · have hthere : StyleTree.WellKeyed ((table.lookup c.name).getD []) := by
        cases hlookup : table.lookup c.name with
        | none => exact .nil
        | some tree => exact htable _ (Keyed.mem_of_lookup hlookup)
      exact hthere.merge (hc.nestIn c.context)
    · exact htable entry hentry

/-! ## Registering -/

variable {strict : Bool} {b b' : Builder}

theorem wellKeyed_pushUtility (h : b.registry.WellKeyed) (name : Text) {spec : UtilitySpec}
    (hspec : spec.WellKeyed) : (b.pushUtility name spec).registry.WellKeyed where
  utility other own hown := by
    rcases SpecTable.mem_specs_push hown with hown | rfl
    · exact h.utility other own hown
    · exact hspec
  variant := h.variant

theorem wellKeyed_pushVariant (h : b.registry.WellKeyed) (name : Text) {spec : VariantSpec}
    (hspec : spec.WellKeyed) : (b.pushVariant name spec).registry.WellKeyed where
  utility := h.utility
  variant other own hown := by
    rcases SpecTable.mem_specs_push hown with hown | rfl
    · exact h.variant other own hown
    · exact hspec

theorem wellKeyed_foldl_pushUtility {plugin : Text} {flags : Flags} :
    ∀ {entries : List (Text × StyleTree)} {b : Builder}, b.registry.WellKeyed →
      (∀ entry ∈ entries, StyleTree.WellKeyed entry.2) →
        (entries.foldl (fun b entry => b.pushUtility entry.1 ⟨plugin, .fixed entry.2 flags⟩)
          b).registry.WellKeyed
  | [], _, hb, _ => hb
  | entry :: rest, b, hb, hentries => by
    obtain ⟨hentry, hrest⟩ := List.forall_mem_cons.mp hentries
    have hspec : UtilitySpec.WellKeyed ⟨plugin, .fixed entry.2 flags⟩ := hentry
    rw [List.foldl_cons]
    exact wellKeyed_foldl_pushUtility (wellKeyed_pushUtility hb entry.1 hspec) hrest

/-- What goes on after something that may fail has gone on after its outcome. -/
theorem exists_of_bind_eq_ok {ε α β : Type} {x : Except ε α} {f : α → Except ε β} {value : β}
    (h : (x >>= f) = .ok value) : ∃ a, x = .ok a ∧ f a = .ok value := by
  cases x with
  | error e => cases h
  | ok a => exact ⟨a, rfl, h⟩

/-- Claiming a key leaves the registry alone. -/
theorem registry_claim {table : Table} {key : Text} (h : b.claim strict table key = .ok b') :
    b'.registry = b.registry := by
  unfold claim at h
  split at h
  · split at h
    · cases h
    · cases h; rfl
  · cases h; rfl

theorem registry_claimClasses : ∀ {found : List Selector.ClassBody} {b b' : Builder},
    b.claimClasses strict found = .ok b' → b'.registry = b.registry
  | [], _, _, h => by cases h; rfl
  | c :: rest, b, b', h => by
    obtain ⟨claimed, hclaim, hrest⟩ := exists_of_bind_eq_ok h
    rw [registry_claimClasses hrest, registry_claim hclaim]

/-- A registration keeps the registry well-keyed. -/
theorem wellKeyed_register {plugin : Text} {r : Registration} (hb : b.registry.WellKeyed)
    (hr : r.WellKeyed) (h : b.register strict plugin r = .ok b') : b'.registry.WellKeyed := by
  cases r with
  | base tree =>
    cases h
    exact ⟨hb.utility, hb.variant⟩
  | classes tree flags =>
    obtain ⟨claimed, hclaim, hpushed⟩ := exists_of_bind_eq_ok h
    cases hpushed
    exact wellKeyed_foldl_pushUtility (registry_claimClasses hclaim ▸ hb)
      (wellKeyed_of_mem_grouped (Selector.wellKeyed_of_mem_bodies hr))
  | utility name u =>
    cases h
    exact wellKeyed_pushUtility hb name hr
  | variant name rule post =>
    cases rule with
    | fixed templates =>
      obtain ⟨claimed, hclaim, hpushed⟩ := exists_of_bind_eq_ok h
      cases hpushed
      exact wellKeyed_pushVariant (registry_claim hclaim ▸ hb) name hr
    | lookup v =>
      cases h
      exact wellKeyed_pushVariant hb name hr

theorem wellKeyed_registerAll {plugin : Text} : ∀ {rs : List Registration} {b b' : Builder},
    b.registry.WellKeyed → (∀ r ∈ rs, r.WellKeyed) →
      b.registerAll strict plugin rs = .ok b' → b'.registry.WellKeyed
  | [], _, _, hb, _, h => by cases h; exact hb
  | r :: rest, b, b', hb, hrs, h => by
    obtain ⟨hr, hrest⟩ := List.forall_mem_cons.mp hrs
    obtain ⟨next, hregister, hnext⟩ := exists_of_bind_eq_ok h
    exact wellKeyed_registerAll (wellKeyed_register hb hr hregister) hrest hnext

theorem wellKeyed_run {around : Surroundings} : ∀ {plugins : List Plugin} {b b' : Builder},
    b.registry.WellKeyed → (∀ p ∈ plugins, p.WellKeyed) →
      b.run strict around plugins = .ok b' → b'.registry.WellKeyed
  | [], _, _, hb, _, h => by cases h; exact hb
  | p :: rest, b, b', hb, hplugins, h => by
    obtain ⟨hp, hrest⟩ := List.forall_mem_cons.mp hplugins
    obtain ⟨next, hregister, hnext⟩ := exists_of_bind_eq_ok h
    exact wellKeyed_run (wellKeyed_registerAll hb (hp around) hregister) hrest hnext

end Builder

variable {strict : Bool} {around : Surroundings} {plugins : List Plugin} {registry : Registry}

/-- What a registry that was built holds is what running the plugins has registered. -/
theorem exists_run_of_build (h : build strict around plugins = .ok registry) :
    ∃ b, Builder.start.run strict around plugins = .ok b ∧ b.registry = registry := by
  unfold build at h
  cases hrun : Builder.start.run strict around plugins with
  | error duplicate => rw [hrun] at h; cases h
  | ok b =>
    rw [hrun] at h
    cases h
    exact ⟨b, rfl, rfl⟩

/-- The registry of plugins that register nothing with repeated keys is well-keyed. -/
theorem wellKeyed_build (hplugins : ∀ p ∈ plugins, p.WellKeyed)
    (h : build strict around plugins = .ok registry) : registry.WellKeyed := by
  obtain ⟨b, hrun, rfl⟩ := exists_run_of_build h
  exact Builder.wellKeyed_run wellKeyed_empty hplugins hrun

end Registry

/-! ## Global styles

Global styles are merged as they come, and no other registration touches them.  So what a registry
holds of them, before any directive is expanded, is all the global styles that plugins register,
merged in the order of registration. -/

/-- The global styles that are registered. -/
def Registration.base? : Registration → Option StyleTree
  | .base tree => some tree
  | _ => none

/-- The global styles that the plugin registers, in order. -/
def Plugin.bases (around : Surroundings) (plugin : Plugin) : List StyleTree :=
  (plugin.register around).filterMap Registration.base?

namespace Registry
namespace Builder

variable {strict : Bool} {b b' : Builder}

/-- Adding utilities leaves global styles alone. -/
theorem base_foldl_pushUtility {plugin : Text} {flags : Flags} (entries : List (Text × StyleTree))
    (b : Builder) :
    (entries.foldl (fun b entry => b.pushUtility entry.1 ⟨plugin, .fixed entry.2 flags⟩)
      b).registry.base = b.registry.base := by
  induction entries generalizing b with
  | nil => rfl
  | cons entry rest ih => exact ih _

/-- A registration merges its global styles, if it has any. -/
theorem base_register {plugin : Text} {r : Registration}
    (h : b.register strict plugin r = .ok b') :
    b'.registry.base = r.base?.toList.foldl StyleTree.merge b.registry.base := by
  cases r with
  | base tree => cases h; rfl
  | classes tree flags =>
    obtain ⟨claimed, hclaim, hpushed⟩ := exists_of_bind_eq_ok h
    cases hpushed
    rw [base_foldl_pushUtility, registry_claimClasses hclaim]
    rfl
  | utility name u => cases h; rfl
  | variant name rule post =>
    cases rule with
    | fixed templates =>
      obtain ⟨claimed, hclaim, hpushed⟩ := exists_of_bind_eq_ok h
      cases hpushed
      show claimed.registry.base = _
      rw [registry_claim hclaim]
      rfl
    | lookup v => cases h; rfl

theorem base_registerAll {plugin : Text} : ∀ {rs : List Registration} {b b' : Builder},
    b.registerAll strict plugin rs = .ok b' →
      b'.registry.base = (rs.filterMap Registration.base?).foldl StyleTree.merge b.registry.base
  | [], _, _, h => by cases h; rfl
  | r :: rest, b, b', h => by
    obtain ⟨next, hregister, hnext⟩ := exists_of_bind_eq_ok h
    rw [base_registerAll hnext, base_register hregister]
    cases hbase : r.base? with
    | none => rw [List.filterMap_cons_none hbase]; rfl
    | some tree => rw [List.filterMap_cons_some hbase]; rfl

theorem base_run {around : Surroundings} : ∀ {plugins : List Plugin} {b b' : Builder},
    b.run strict around plugins = .ok b' → b'.registry.base =
      (plugins.flatMap (Plugin.bases around)).foldl StyleTree.merge b.registry.base
  | [], _, _, h => by cases h; rfl
  | p :: rest, b, b', h => by
    obtain ⟨next, hregister, hnext⟩ := exists_of_bind_eq_ok h
    rw [base_run hnext, base_registerAll hregister, List.flatMap_cons, List.foldl_append]
    rfl

end Builder

/-- The global styles of a registry are those that plugins register, merged in order. -/
theorem base_build {strict : Bool} {around : Surroundings} {plugins : List Plugin}
    {registry : Registry} (h : build strict around plugins = .ok registry) :
    registry.base = (plugins.flatMap (Plugin.bases around)).foldl StyleTree.merge [] := by
  obtain ⟨b, hrun, rfl⟩ := exists_run_of_build h
  exact Builder.base_run hrun

end Registry
end UtilityCss
