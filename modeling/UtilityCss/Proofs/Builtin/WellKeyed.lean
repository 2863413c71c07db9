import Mathlib.Data.List.Nodup
import UtilityCss.Context
import UtilityCss.Proofs.Registry.WellKeyed

/-!
# The built-in plugins register no repeated keys

Most built-in utilities are lines of a table, and for these it is enough that no line names
a property twice.  The others are looked at one by one.  So a registry in which a key stands
twice can come only from a plugin that brings such a tree with it.
-/

namespace UtilityCss
namespace Builtin

open StyleTree (WellKeyed)

/-! ## Declarations -/

/-- Declarations of different properties. -/
theorem wellKeyed_of_declarations {tree : StyleTree} (hkeys : (Keyed.keys tree).Nodup)
    (hvalues : ∀ entry ∈ tree, entry.2.isTree = false) : WellKeyed tree := by
  refine StyleTree.wellKeyed_iff.mpr ⟨hkeys, fun entry hentry => ?_⟩
  have hvalue := hvalues entry hentry
  cases hentry : entry.2 with
  | scalar text => trivial
  | list items => trivial
  | tree entries =>
    rw [hentry] at hvalue
    cases hvalue

theorem wellKeyed_declare {properties : List String} (h : properties.Nodup) (value : Text)
    (info : RenderInfo) : WellKeyed (declare properties value info) := by
  refine wellKeyed_of_declarations ?_ fun entry hentry => ?_
  · rw [Keyed.keys, declare, List.map_map]
    exact h.map fun _ _ => String.toList_injective
  · obtain ⟨property, -, rfl⟩ := List.mem_map.mp hentry
    rfl

theorem wellKeyed_declarations {entries : List (String × String)}
    (h : (entries.map Prod.fst).Nodup) : WellKeyed (declarations entries) := by
  refine wellKeyed_of_declarations ?_ fun entry hentry => ?_
  · rw [Keyed.keys, declarations, List.map_map]
    show (entries.map (String.toList ∘ Prod.fst)).Nodup
    rw [← List.map_map]
    exact h.map fun _ _ => String.toList_injective
  · obtain ⟨declaration, -, rfl⟩ := List.mem_map.mp hentry
    rfl

/-- Nested trees under different selectors. -/
theorem wellKeyed_rules {entries : List (String × StyleTree)} (h : (entries.map Prod.fst).Nodup)
    (htrees : ∀ entry ∈ entries, WellKeyed entry.2) : WellKeyed (rules entries) := by
  refine StyleTree.wellKeyed_iff.mpr ⟨?_, fun entry hentry => ?_⟩
  · rw [Keyed.Distinct, Keyed.keys, rules, List.map_map]
    show (entries.map (String.toList ∘ Prod.fst)).Nodup
    rw [← List.map_map]
    exact h.map fun _ _ => String.toList_injective
  · obtain ⟨rule, hrule, rfl⟩ := List.mem_map.mp hentry
    exact htrees rule hrule

/-! ## Registrations -/

theorem wellKeyed_lookup {name : Text} {options : LookupOptions}
    {render : Text → RenderInfo → StyleTree} (hpost : options.post = none)
    (hrender : ∀ text info, WellKeyed (render text info)) :
    (Registration.lookup name options render).WellKeyed where
  render := hrender
  post post h := by
    change options.post = some post at h
    rw [hpost] at h
    cases h

/-- A table of utilities, of which no line names a property twice. -/
theorem wellKeyed_lookups {options : LookupOptions} {utilities : List (String × List String)}
    (hpost : options.post = none) (h : ∀ u ∈ utilities, u.2.Nodup) :
    ∀ r ∈ lookups options utilities, r.WellKeyed := by
  intro r hr
  obtain ⟨u, hu, rfl⟩ := List.mem_map.mp hr
  exact wellKeyed_lookup hpost (wellKeyed_declare (h u hu))

theorem wellKeyed_variant (name : Text) (rule : VariantRule) :
    (Registration.variant name rule none).WellKeyed := fun _ h => absurd h (by simp)

theorem wellKeyed_template (name : Text) (templates : List Text) :
    (Registration.template name templates).WellKeyed := wellKeyed_variant name _

/-- Variants that do nothing to the style, one for each entry of a table. -/
theorem wellKeyed_variants {α : Type} {entries : List α} {name : α → Text}
    {rule : α → VariantRule} :
    ∀ r ∈ entries.map fun entry => Registration.variant (name entry) (rule entry) none,
      r.WellKeyed := by
  intro r hr
  obtain ⟨entry, -, rfl⟩ := List.mem_map.mp hr
  exact wellKeyed_variant _ _

/-- A class for each keyword, of which none is named twice. -/
theorem wellKeyed_keywords {property : String} {classes : List (String × String)}
    (h : (classes.map Prod.fst).Nodup) : ∀ r ∈ keywords property classes, r.WellKeyed := by
  refine List.forall_mem_singleton.mpr (StyleTree.wellKeyed_iff.mpr ⟨?_, fun entry hentry => ?_⟩)
  · rw [Keyed.Distinct, Keyed.keys, List.map_map]
    show (classes.map ((fun name => '.' :: String.toList name) ∘ Prod.fst)).Nodup
    rw [← List.map_map]
    exact h.map fun _ _ hname => String.toList_injective (List.cons.inj hname).2
  · obtain ⟨keyword, -, rfl⟩ := List.mem_map.mp hentry
    exact wellKeyed_declarations (List.nodup_singleton _)

/-! ## The plugins that are not tables -/

/-- Several screens may be as wide as each other; their rules are then one. -/
theorem wellKeyed_containerTree (around : Surroundings) : WellKeyed (containerTree around) := by
  suffices h : ∀ (widths : List (Text × Text)) (tree : StyleTree), WellKeyed tree →
      WellKeyed (widths.foldl (fun tree screen => Keyed.put (minWidth screen.2)
        (.tree [(".container", .tree [("max-width", .scalar screen.2)])]) tree) tree) from
    h _ _ ((WellKeyed.scalar _ _).nest _)
  intro widths
  induction widths with
  | nil => exact fun _ h => h
  | cons screen rest ih =>
    intro tree htree
    exact ih _ (htree.put _ ((WellKeyed.scalar _ _).nest _))

/-- The properties that an entry of the theme pairs with a size are some of those that it may. -/
theorem keys_pairedStyle_sublist (entry : Option Data) :
    (Keyed.keys (pairedStyle entry)).Sublist (fontOptions.map Prod.snd) := by
  unfold pairedStyle
  split
  · exact List.singleton_sublist.mpr List.mem_cons_self
  · generalize fontOptions = known
    induction known with
    | nil => exact .slnil
    | cons option rest ih =>
      rw [List.filterMap_cons]
      split
      · exact ih.cons _
      · rename_i declaration hdeclaration
        obtain ⟨text, -, rfl⟩ := Option.map_eq_some_iff.mp hdeclaration
        exact ih.cons_cons _
  · exact List.nil_sublist _

theorem isTree_of_mem_pairedStyle {entry : Option Data} :
    ∀ declaration ∈ pairedStyle entry, declaration.2.isTree = false := by
  unfold pairedStyle
  split
  · exact List.forall_mem_singleton.mpr rfl
  · intro declaration h
    obtain ⟨option, -, h⟩ := List.mem_filterMap.mp h
    obtain ⟨text, -, rfl⟩ := Option.map_eq_some_iff.mp h
    rfl
  · exact fun _ h => absurd h List.not_mem_nil

theorem wellKeyed_fontSizeStyle (size : Text) (info : RenderInfo) :
    WellKeyed (fontSizeStyle size info) := by
  have hnodup : (("font-size" : Text) :: fontOptions.map Prod.snd).Nodup := by decide
  unfold fontSizeStyle
  split
  · refine wellKeyed_of_declarations (List.Sublist.nodup ?_ hnodup) ?_
    · exact .cons_cons _ (List.singleton_sublist.mpr List.mem_cons_self)
    · exact List.forall_mem_cons.mpr ⟨rfl, List.forall_mem_singleton.mpr rfl⟩
  · refine wellKeyed_of_declarations (List.Sublist.nodup ?_ hnodup) ?_
    · exact .cons_cons _ (keys_pairedStyle_sublist info.entry)
    · exact List.forall_mem_cons.mpr ⟨rfl, isTree_of_mem_pairedStyle⟩

theorem keepsKeys_withContent : KeepsKeys withContent :=
  fun _ htree => (WellKeyed.scalar _ _).merge htree

theorem wellKeyed_pseudoElementVariants (around : Surroundings) :
    ∀ r ∈ pseudoElementVariants around, r.WellKeyed := by
  have hcontent : ∀ post ∈ some withContent, KeepsKeys post := fun _ hpost =>
    Option.mem_some_iff.mp hpost ▸ keepsKeys_withContent
  simp only [pseudoElementVariants, List.forall_mem_cons, wellKeyed_template, true_and]
  exact ⟨hcontent, hcontent, fun _ h => absurd h List.not_mem_nil⟩

/-! ## All of them -/

/-- Whatever a built-in plugin sees, it registers nothing with repeated keys. -/
theorem wellKeyed_handlers : ∀ handler ∈ handlers, ∀ around, ∀ r ∈ handler around,
    r.WellKeyed := by
  have hone : ∀ r : Registration, r.WellKeyed → ∀ own ∈ [r], own.WellKeyed :=
    fun _ h => List.forall_mem_singleton.mpr h
  have htwo : ∀ tree, ∀ r : Registration, r.WellKeyed →
      ∀ own ∈ [Registration.defaults tree, r], own.WellKeyed :=
    fun _ r h => List.forall_mem_cons.mpr ⟨trivial, hone r h⟩
  simp only [handlers, List.forall_mem_cons]
  refine ⟨?preflight, ?pseudoClass, wellKeyed_pseudoElementVariants, ?group, ?peer, ?dark,
    ?screen, ?media, ?supports, ?data, ?aria, ?container, ?display, ?position, ?inset, ?zIndex,
    ?margin, ?padding, ?width, ?height, ?gap, ?rotate, ?backgroundColor, ?backgroundImage,
    ?backgroundPosition, ?backgroundSize, ?opacity, ?borderWidth, ?borderColor, ?borderRadius,
    ?boxShadow, ?textColor, ?fontSize, ?fontWeight, ?fontFamily, ?placeholderColor, ?content,
    fun _ h => absurd h List.not_mem_nil⟩ <;> intro around
  case preflight => exact hone _ trivial
  case pseudoClass | screen => exact wellKeyed_variants
  case group | peer | dark | supports | data | aria => exact hone _ (wellKeyed_variant _ _)
  case media =>
    simp only [mediaVariants, List.forall_mem_cons, wellKeyed_template, true_and]
    exact fun _ h => absurd h List.not_mem_nil
  case container => exact hone _ (wellKeyed_containerTree around)
  case display | position => exact wellKeyed_keywords (by decide)
  case rotate =>
    exact htwo _ _ (wellKeyed_lookup rfl fun _ _ => ⟨by decide, trivial, WellKeyed.scalar _ _⟩)
  case fontSize => exact hone _ (wellKeyed_lookup rfl wellKeyed_fontSizeStyle)
  case placeholderColor =>
    exact hone _ (wellKeyed_lookup rfl fun _ _ => (WellKeyed.scalar _ _).nest _)
  case content =>
    exact htwo _ _ (wellKeyed_lookup rfl fun _ _ => ⟨by decide, trivial, WellKeyed.scalar _ _⟩)
  -- the others are tables
  all_goals exact wellKeyed_lookups rfl (by decide)

theorem wellKeyed_plugins : ∀ p ∈ plugins, p.WellKeyed := by
  intro p hp
  rw [plugins, ← List.map_uncurry_zip_eq_zipWith] at hp
  obtain ⟨⟨name, handler⟩, hboth, rfl⟩ := List.mem_map.mp hp
  exact wellKeyed_handlers handler (List.of_mem_zip hboth).2

/-! ## Global styles -/

theorem filterMap_base?_map {α : Type} {f : α → Registration} (h : ∀ a, (f a).base? = none)
    (entries : List α) : (entries.map f).filterMap Registration.base? = [] := by
  rw [List.filterMap_map]
  exact List.filterMap_eq_nil_iff.mpr fun a _ => h a

theorem wellKeyed_defaults {properties : StyleTree} (h : WellKeyed properties) :
    ∀ tree ∈ (Registration.defaults properties).base?, WellKeyed tree := by
  intro tree htree
  obtain rfl := Option.some.inj htree
  have hnodup : ("*, ::before, ::after".toList : Text) ∉ ["::backdrop".toList] := by decide
  exact ⟨hnodup, h, List.not_mem_nil, h, trivial⟩

theorem wellKeyed_bases_handlers : ∀ handler ∈ handlers, ∀ around,
    ∀ tree ∈ (handler around).filterMap Registration.base?, WellKeyed tree := by
  have hnone : ∀ {rs : List Registration}, rs.filterMap Registration.base? = [] →
      ∀ tree ∈ rs.filterMap Registration.base?, WellKeyed tree := by
    intro rs h tree htree
    rw [h] at htree
    exact absurd htree List.not_mem_nil
  have hfirst : ∀ {r s : Registration}, (∀ tree ∈ r.base?, WellKeyed tree) → s.base? = none →
      ∀ tree ∈ [r, s].filterMap Registration.base?, WellKeyed tree := by
    intro r s hr hs tree htree
    obtain ⟨own, hown, hbase⟩ := List.mem_filterMap.mp htree
    rcases List.mem_cons.mp hown with rfl | hown
    · exact hr tree hbase
    · rw [List.mem_singleton.mp hown, hs] at hbase
      exact absurd hbase (Option.some_ne_none tree).symm
  simp only [handlers, List.forall_mem_cons]
  refine ⟨?preflight, ?_, ?_, ?_, ?_, ?_, ?_, ?_, ?_, ?_, ?_, ?_, ?_, ?_, ?_, ?_, ?_, ?_, ?_, ?_,
    ?_, ?rotate, ?_, ?_, ?_, ?_, ?_, ?_, ?_, ?_, ?_, ?_, ?_, ?_, ?_, ?_, ?content,
    fun _ h => absurd h List.not_mem_nil⟩ <;> intro around
  case preflight =>
    refine List.forall_mem_singleton.mpr (wellKeyed_rules (by decide) ?_)
    simp only [List.forall_mem_cons]
    exact ⟨wellKeyed_declarations (by decide), wellKeyed_declarations (by decide),
      wellKeyed_declarations (by decide), wellKeyed_declarations (by decide),
      wellKeyed_declarations (by decide), fun _ h => absurd h List.not_mem_nil⟩
  case rotate | content =>
    exact hfirst (wellKeyed_defaults (wellKeyed_declarations (by decide))) rfl
  -- the others register none
  all_goals
    refine hnone ?_
    first
    | rfl
    | exact filterMap_base?_map (fun _ => rfl) _

/-- No global styles of a built-in plugin hold a key twice. -/
theorem wellKeyed_of_mem_bases {around : Surroundings} :
    ∀ p ∈ plugins, ∀ tree ∈ p.bases around, WellKeyed tree := by
  intro p hp
  rw [plugins, ← List.map_uncurry_zip_eq_zipWith] at hp
  obtain ⟨⟨name, handler⟩, hboth, rfl⟩ := List.mem_map.mp hp
  exact wellKeyed_bases_handlers handler (List.of_mem_zip hboth).2 around

end Builtin

namespace Context

variable {config : ResolvedConfig} {strict : Bool} {ctx : Context}

/-- The registry of a context that was built holds what the plugins register, and its global styles
are those of the registry with their directives expanded. -/
theorem of_build (h : build config strict = .ok ctx) :
    Registry.build strict config.surroundings
        (Builtin.enabled config.settings ++ config.plugins) = .ok ctx.env.registry ∧
      (ctx.env.expand ctx.env.registry.base).lenient = .ok ctx.globalStyles ∧
      ctx.strict = strict := by
  unfold build at h
  split at h
  · cases h
  · dsimp only at h
    split at h
    · cases h
    · rename_i registry hregistry
      split at h
      · cases h
      · rename_i htorn
        cases h
        exact ⟨hregistry, if_neg htorn, rfl⟩

/-- A context is built from the registry of what the plugins register, unless its global styles are
torn. -/
theorem build_of_registry {separator : Separator} {registry : Registry} {styles : StyleTree}
    (hseparator : Separator.ofText config.settings.separator = .ok separator)
    (hregistry : Registry.build strict config.surroundings
      (Builtin.enabled config.settings ++ config.plugins) = .ok registry)
    (hglobal : (Environment.expand ⟨⟨config.theme⟩, config.settings, separator, registry⟩
      registry.base).lenient = .ok styles) :
    build config strict =
      .ok ⟨⟨⟨config.theme⟩, config.settings, separator, registry⟩, styles, strict⟩ := by
  unfold build
  rw [hseparator]
  dsimp only
  rw [hregistry]
  rw [Report.lenient] at hglobal
  split at hglobal
  · cases hglobal
  · rename_i htorn
    cases hglobal
    exact if_neg htorn

/-- The settings of a context that was built are those of the configuration, and its separator is
the one they ask for. -/
theorem settings_of_build (h : build config strict = .ok ctx) :
    ctx.env.settings = config.settings ∧ ctx.env.theme = ⟨config.theme⟩ ∧
      Separator.ofText config.settings.separator = .ok ctx.env.separator := by
  unfold build at h
  split at h
  · cases h
  · rename_i separator hseparator
    dsimp only at h
    split at h
    · cases h
    · split at h
      · cases h
      · cases h
        exact ⟨rfl, rfl, hseparator⟩

/-- A context whose configuration brings no plugin that repeats a key has a well-keyed
registry. -/
theorem wellKeyed_build (hplugins : ∀ p ∈ config.plugins, p.WellKeyed)
    (h : build config strict = .ok ctx) : ctx.env.registry.WellKeyed := by
  refine Registry.wellKeyed_build (fun p hp => ?_) (of_build h).1
  rcases List.mem_append.mp hp with hp | hp
  · exact Builtin.wellKeyed_plugins p (List.mem_of_mem_filter hp)
  · exact hplugins p hp

end Context
end UtilityCss
