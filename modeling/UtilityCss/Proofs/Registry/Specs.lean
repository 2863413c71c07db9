import UtilityCss.Proofs.Registry.WellKeyed

/-!
# What is registered under a name

Specs are added behind those that are there, and claiming a class leaves them alone.  So the specs
under a name are those that the registrations make for that name, one plugin after the other, in
the order of registration.  A style tree makes one spec for each name of a class, in which the
trees of all classes of that name are merged.
-/

namespace UtilityCss

open Registry (Builder)

/-- The specs that a registration of the plugin makes for a name. -/
def Registration.specs (plugin name : Text) : Registration → List UtilitySpec
  | .classes tree flags =>
    ((Builder.grouped (Selector.bodies [] tree)).filter fun entry => entry.1 = name).map
      fun entry => ⟨plugin, .fixed entry.2 flags⟩
  | .utility own u => if own = name then [⟨plugin, .lookup u⟩] else []
  | .base _ => []
  | .variant .. => []

/-- The specs that the plugin makes for a name, in order. -/
def Plugin.specs (around : Surroundings) (name : Text) (plugin : Plugin) : List UtilitySpec :=
  (plugin.register around).flatMap (Registration.specs plugin.name name)

/-- The names that a registration makes specs for. -/
def Registration.names : Registration → List Text
  | .classes tree _ => (Selector.bodies [] tree).map Selector.ClassBody.name
  | .utility name _ => [name]
  | .base _ => []
  | .variant .. => []

/-- The specs of variants that a registration of the plugin makes for a name. -/
def Registration.variantSpecs (plugin name : Text) : Registration → List VariantSpec
  | .variant own rule post => if own = name then [⟨plugin, rule, post⟩] else []
  | .base _ => []
  | .classes .. => []
  | .utility .. => []

/-- The specs of variants that the plugin makes for a name, in order. -/
def Plugin.variantSpecs (around : Surroundings) (name : Text) (plugin : Plugin) :
    List VariantSpec :=
  (plugin.register around).flatMap (Registration.variantSpecs plugin.name name)

/-- Classes are grouped under their names. -/
theorem Registry.Builder.name_of_mem_grouped {found : List Selector.ClassBody} :
    ∀ entry ∈ grouped found, entry.1 ∈ found.map Selector.ClassBody.name := by
  suffices h : ∀ (found : List Selector.ClassBody) (table : List (Text × StyleTree)),
      ∀ entry ∈ found.foldl (fun table c => Keyed.put c.name
        (StyleTree.merge ((table.lookup c.name).getD []) c.nested) table) table,
        entry ∈ table ∨ entry.1 ∈ found.map Selector.ClassBody.name by
    exact fun entry hentry => (h found [] entry hentry).resolve_left List.not_mem_nil
  intro found
  induction found with
  | nil => exact fun _ _ hentry => .inl hentry
  | cons c rest ih =>
    intro table entry hentry
    rcases ih _ entry hentry with hentry | hentry
    · rcases Keyed.mem_put hentry with rfl | hentry
      · exact .inr List.mem_cons_self
      · exact .inl hentry
    · exact .inr (List.mem_cons_of_mem _ hentry)

/-- For other names there are no specs. -/
theorem Registration.specs_eq_nil {plugin name : Text} {r : Registration} (h : name ∉ r.names) :
    r.specs plugin name = [] := by
  cases r with
  | classes tree flags =>
    refine List.map_eq_nil_iff.mpr (List.filter_eq_nil_iff.mpr fun entry hentry => ?_)
    rw [decide_eq_true_iff]
    rintro rfl
    exact h (Builder.name_of_mem_grouped entry hentry)
  | utility own u => exact if_neg fun (hown : own = name) => h (hown ▸ List.mem_singleton_self own)
  | base tree => rfl
  | variant own rule post => rfl

/-- The specs of a name, after one was added to that name or another. -/
theorem SpecTable.specs_push {α : Type} (table : SpecTable α) (own name : Text) (spec : α) :
    specs (push table own spec) name = specs table name ++ if own = name then [spec] else [] := by
  split
  · rename_i h
    rw [← h, specs_push_self]
  · rename_i h
    rw [specs_push_of_ne table (Ne.symm h), List.append_nil]

namespace Registry
namespace Builder

variable {strict : Bool} {b b' : Builder} {name : Text}

theorem specs_foldl_pushUtility {plugin : Text} {flags : Flags} (entries : List (Text × StyleTree))
    (b : Builder) :
    (entries.foldl (fun b entry => b.pushUtility entry.1 ⟨plugin, .fixed entry.2 flags⟩)
      b).registry.utilities.specs name = b.registry.utilities.specs name ++
        (entries.filter fun entry => entry.1 = name).map
          fun entry => ⟨plugin, .fixed entry.2 flags⟩ := by
  induction entries generalizing b with
  | nil => rw [List.filter_nil, List.map_nil, List.append_nil]; rfl
  | cons entry rest ih =>
    rw [List.foldl_cons, ih]
    show SpecTable.specs (SpecTable.push _ _ _) name ++ _ = _
    rw [SpecTable.specs_push, List.append_assoc, List.filter_cons]
    by_cases h : entry.1 = name <;> simp [h]

/-- A registration adds its specs. -/
theorem specs_register {plugin : Text} {r : Registration}
    (h : b.register strict plugin r = .ok b') :
    b'.registry.utilities.specs name =
      b.registry.utilities.specs name ++ r.specs plugin name := by
  cases r with
  | base tree => cases h; exact (List.append_nil _).symm
  | classes tree flags =>
    obtain ⟨claimed, hclaim, hpushed⟩ := exists_of_bind_eq_ok h
    cases hpushed
    rw [specs_foldl_pushUtility, registry_claimClasses hclaim]
    rfl
  | utility own u =>
    cases h
    exact SpecTable.specs_push _ own name _
  | variant own rule post =>
    cases rule with
    | fixed templates =>
      obtain ⟨claimed, hclaim, hpushed⟩ := exists_of_bind_eq_ok h
      cases hpushed
      show claimed.registry.utilities.specs name = _
      rw [registry_claim hclaim]
      exact (List.append_nil _).symm
    | lookup v => cases h; exact (List.append_nil _).symm

theorem variants_foldl_pushUtility {plugin : Text} {flags : Flags}
    (entries : List (Text × StyleTree)) (b : Builder) :
    (entries.foldl (fun b entry => b.pushUtility entry.1 ⟨plugin, .fixed entry.2 flags⟩)
      b).registry.variants = b.registry.variants := by
  induction entries generalizing b with
  | nil => rfl
  | cons entry rest ih => rw [List.foldl_cons, ih]; rfl

/-- A registration adds its specs of variants. -/
theorem variantSpecs_register {plugin : Text} {r : Registration}
    (h : b.register strict plugin r = .ok b') : b'.registry.variants.specs name =
      b.registry.variants.specs name ++ r.variantSpecs plugin name := by
  cases r with
  | base tree => cases h; exact (List.append_nil _).symm
  | classes tree flags =>
    obtain ⟨claimed, hclaim, hpushed⟩ := exists_of_bind_eq_ok h
    cases hpushed
    rw [variants_foldl_pushUtility, registry_claimClasses hclaim]
    exact (List.append_nil _).symm
  | utility own u => cases h; exact (List.append_nil _).symm
  | variant own rule post =>
    cases rule with
    | fixed templates =>
      obtain ⟨claimed, hclaim, hpushed⟩ := exists_of_bind_eq_ok h
      cases hpushed
      rw [← registry_claim hclaim]
      exact SpecTable.specs_push _ own name _
    | lookup v => cases h; exact SpecTable.specs_push _ own name _

/-- Registrations add their specs to both tables, in order. -/
theorem specs_registerAll {plugin : Text} : ∀ {rs : List Registration} {b b' : Builder},
    b.registerAll strict plugin rs = .ok b' →
      b'.registry.utilities.specs name = b.registry.utilities.specs name ++
        rs.flatMap (Registration.specs plugin name) ∧
      b'.registry.variants.specs name = b.registry.variants.specs name ++
        rs.flatMap (Registration.variantSpecs plugin name)
  | [], _, _, h => by cases h; exact ⟨(List.append_nil _).symm, (List.append_nil _).symm⟩
  | r :: rest, b, b', h => by
    obtain ⟨next, hregister, hnext⟩ := exists_of_bind_eq_ok h
    obtain ⟨hutilities, hvariants⟩ := specs_registerAll hnext
    rw [hutilities, hvariants, specs_register hregister, variantSpecs_register hregister]
    simp only [List.flatMap_cons, List.append_assoc, and_self]

theorem specs_run {around : Surroundings} : ∀ {plugins : List Plugin} {b b' : Builder},
    b.run strict around plugins = .ok b' →
      b'.registry.utilities.specs name = b.registry.utilities.specs name ++
        plugins.flatMap (Plugin.specs around name) ∧
      b'.registry.variants.specs name = b.registry.variants.specs name ++
        plugins.flatMap (Plugin.variantSpecs around name)
  | [], _, _, h => by cases h; exact ⟨(List.append_nil _).symm, (List.append_nil _).symm⟩
  | p :: rest, b, b', h => by
    obtain ⟨next, hregister, hnext⟩ := exists_of_bind_eq_ok h
    obtain ⟨hutilities, hvariants⟩ := specs_run hnext
    obtain ⟨hutilities', hvariants'⟩ := @specs_registerAll _ name _ _ _ _ hregister
    rw [hutilities, hvariants, hutilities', hvariants', List.flatMap_cons, List.flatMap_cons,
      List.append_assoc, List.append_assoc]
    exact ⟨rfl, rfl⟩

end Builder

section

variable {strict : Bool} {around : Surroundings} {plugins : List Plugin} {registry : Registry}

/-- The specs under a name are those that plugins make for it, in order. -/
theorem specs_build (h : build strict around plugins = .ok registry) (name : Text) :
    registry.utilities.specs name = plugins.flatMap (Plugin.specs around name) := by
  obtain ⟨b, hrun, rfl⟩ := exists_run_of_build h
  exact (Builder.specs_run hrun).1

/-- The specs of variants under a name are those that plugins make for it, in order. -/
theorem variantSpecs_build (h : build strict around plugins = .ok registry) (name : Text) :
    registry.variants.specs name = plugins.flatMap (Plugin.variantSpecs around name) := by
  obtain ⟨b, hrun, rfl⟩ := exists_run_of_build h
  exact (Builder.specs_run hrun).2

end

end Registry
end UtilityCss
