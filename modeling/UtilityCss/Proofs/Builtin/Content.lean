import UtilityCss.Evaluation.Directive
import UtilityCss.Proofs.Builtin.WellKeyed
import UtilityCss.Proofs.Evaluation.Report
import UtilityCss.Proofs.Registry.Specs
import UtilityCss.Proofs.Style.Level

/-!
# What built-in plugins register about content

What stands before or after an element is shown only if it has content, so the two variants for it
put a default declaration of `content` in front of every style that they wrap.  What comes of it
depends on the styles: an own declaration counts if it is one, and there is nothing to put a default
in front of if a style is empty.

None of the built-in utilities nests a tree under the name of the property, and none that is static
has an empty style.  This is read off what the plugins register: the lookup utilities one by one,
the others in the registry that is built.
-/

namespace UtilityCss

/-! ## Utilities -/

/-- The styles of the utility are as they are rendered, and nothing is nested under the key. -/
structure LookupUtility.FlatAt (key : Text) (u : LookupUtility) : Prop where
  post : u.post = none
  render : ∀ text info, StyleTree.FlatAt key (u.render text info)

/-- Nothing is nested under the key in the styles of the utility, and if it is static, it has a
style, without directives. -/
def UtilitySpec.PlainAt (key : Text) (spec : UtilitySpec) : Prop :=
  match spec.rule with
  | .fixed tree _ => tree ≠ [] ∧ Directive.isNeeded tree = false ∧ StyleTree.FlatAt key tree
  | .lookup u => u.FlatAt key

/-- All utilities are plain, and no two static ones share a name. -/
structure Registry.PlainAt (key : Text) (registry : Registry) : Prop where
  utility : ∀ name, ∀ spec ∈ registry.utilities.specs name, spec.PlainAt key
  sole : ∀ name, ((registry.utilities.specs name).countP fun spec => !spec.isLookup) ≤ 1

/-- What is to be seen of a plain utility without its render function. -/
def UtilitySpec.looksPlainAt (key : Text) (spec : UtilitySpec) : Bool :=
  match spec.rule with
  | .fixed tree _ =>
    !tree.isEmpty && !Directive.isNeeded tree && decide (StyleTree.FlatAt key tree)
  | .lookup _ => true

/-- What is to be seen of plain utilities without their render functions. -/
def Registry.looksPlainAt (key : Text) (registry : Registry) : Bool :=
  registry.utilities.all fun entry =>
    entry.2.all (UtilitySpec.looksPlainAt key) && decide (entry.2.countP (!·.isLookup) ≤ 1)

/-- With the lookup utilities of it, the rest is to be seen. -/
theorem Registry.plainAt_of_looks {key : Text} {registry : Registry}
    (h : registry.looksPlainAt key = true)
    (hlookups : ∀ name, ∀ spec ∈ registry.utilities.specs name,
      ∀ u, spec.rule = .lookup u → u.FlatAt key) : registry.PlainAt key := by
  have hentries := List.all_eq_true.mp h
  constructor
  · intro name spec hspec
    obtain ⟨entry, hentry, hmem⟩ := SpecTable.exists_entry_of_mem_specs hspec
    have hlooks := List.all_eq_true.mp (Bool.and_eq_true_iff.mp (hentries entry hentry)).1 spec hmem
    unfold UtilitySpec.looksPlainAt at hlooks
    unfold UtilitySpec.PlainAt
    cases hrule : spec.rule with
    | lookup u => exact hlookups name spec hspec u hrule
    | fixed tree flags => simpa [hrule, and_assoc] using hlooks
  · intro name
    rw [SpecTable.specs]
    cases hlookup : registry.utilities.lookup name with
    | none => exact Nat.zero_le 1
    | some specs =>
      exact of_decide_eq_true
        (Bool.and_eq_true_iff.mp (hentries _ (Keyed.mem_of_lookup hlookup))).2

/-! ## What the built-in plugins register -/

namespace Builtin

open StyleTree (FlatAt)

/-- The names of the variants for what stands before or after an element. -/
def asides : List Text := Text.listOf ["before", "after"]

/-- Where what stands aside is. -/
def aside (name : Text) : Text := "&::".toList ++ name

/-- Utilities nest nothing under `content`, and variants for what stands aside put a default of it
into styles. -/
def Apt : Registration → Prop
  | .base _ => True
  | .classes .. => True
  | .utility _ u => u.FlatAt "content"
  | .variant name (.fixed templates) post =>
    name ∈ asides → templates = [aside name] → post = some withContent
  | .variant _ (.lookup _) _ => True

theorem apt_lookup {name : Text} {options : LookupOptions}
    {render : Text → RenderInfo → StyleTree} (hpost : options.post = none)
    (hrender : ∀ text info, FlatAt "content" (render text info)) :
    Apt (.lookup name options render) :=
  ⟨hpost, hrender⟩

theorem apt_lookups {options : LookupOptions} {utilities : List (String × List String)}
    (hpost : options.post = none) : ∀ r ∈ lookups options utilities, Apt r := by
  intro r hr
  obtain ⟨u, -, rfl⟩ := List.mem_map.mp hr
  refine apt_lookup hpost fun text info =>
    StyleTree.flatAt_of_declarations (fun entry hentry => ?_) _
  obtain ⟨property, -, rfl⟩ := List.mem_map.mp hentry
  rfl

theorem apt_template {name : Text} {templates : List Text}
    (h : name ∈ asides → templates ≠ [aside name]) : Apt (.template name templates) :=
  fun hname htemplates => absurd htemplates (h hname)

theorem apt_keywords {property : String} {classes : List (String × String)} :
    ∀ r ∈ keywords property classes, Apt r :=
  List.forall_mem_singleton.mpr trivial

theorem apt_pseudoClassVariants (around : Surroundings) :
    ∀ r ∈ pseudoClassVariants around, Apt r := by
  intro r hr
  obtain ⟨entry, hentry, rfl⟩ := List.mem_map.mp hr
  refine apt_template fun hname => absurd hname ?_
  have hnames : ∀ entry ∈ pseudoClasses, entry.1.toList ∉ asides := by decide
  exact hnames entry hentry

theorem apt_pseudoElementVariants (around : Surroundings) :
    ∀ r ∈ pseudoElementVariants around, Apt r := by
  simp only [pseudoElementVariants, List.forall_mem_cons]
  refine ⟨?_, ?_, ?_, ?_, ?_, ?_, ?_, fun _ _ => rfl, fun _ _ => rfl,
    fun _ h => absurd h List.not_mem_nil⟩
  all_goals exact apt_template fun hname => absurd hname (by decide)

theorem apt_screenVariants (around : Surroundings) :
    ∀ r ∈ screenVariants around, Apt r := by
  intro r hr
  obtain ⟨screen, -, rfl⟩ := List.mem_map.mp hr
  refine apt_template fun _ htemplates => ?_
  -- one template is an at-rule, the other a selector
  have hfirst := congrArg List.head? (List.singleton_inj.mp htemplates)
  exact absurd hfirst (by decide : some '@' ≠ some '&')

theorem apt_mediaVariants (around : Surroundings) :
    ∀ r ∈ mediaVariants around, Apt r := by
  simp only [mediaVariants, List.forall_mem_cons]
  refine ⟨?_, ?_, ?_, ?_, ?_, ?_, ?_, fun _ h => absurd h List.not_mem_nil⟩
  all_goals exact apt_template fun hname => absurd hname (by decide)

theorem isTree_of_mem_fontSizeStyle {size : Text} {info : RenderInfo} :
    ∀ declaration ∈ fontSizeStyle size info, declaration.2.isTree = false := by
  unfold fontSizeStyle
  split
  · exact List.forall_mem_cons.mpr ⟨rfl, List.forall_mem_singleton.mpr rfl⟩
  · exact List.forall_mem_cons.mpr ⟨rfl, isTree_of_mem_pairedStyle⟩

theorem apt_handlers : ∀ handler ∈ handlers, ∀ around, ∀ r ∈ handler around, Apt r := by
  have hone : ∀ r : Registration, Apt r → ∀ own ∈ [r], Apt own :=
    fun _ h => List.forall_mem_singleton.mpr h
  have htwo : ∀ tree, ∀ r : Registration, Apt r →
      ∀ own ∈ [Registration.defaults tree, r], Apt own :=
    fun _ r h => List.forall_mem_cons.mpr ⟨trivial, hone r h⟩
  simp only [handlers, List.forall_mem_cons]
  refine ⟨?preflight, ?pseudoClass, apt_pseudoElementVariants, ?group, ?peer, ?dark,
    ?screen, ?media, ?supports, ?data, ?aria, ?container, ?display, ?position, ?inset, ?zIndex,
    ?margin, ?padding, ?width, ?height, ?gap, ?rotate, ?backgroundColor, ?backgroundImage,
    ?backgroundPosition, ?backgroundSize, ?opacity, ?borderWidth, ?borderColor, ?borderRadius,
    ?boxShadow, ?textColor, ?fontSize, ?fontWeight, ?fontFamily, ?placeholderColor, ?content,
    fun _ h => absurd h List.not_mem_nil⟩ <;> intro around
  case preflight | container => exact hone _ trivial
  case pseudoClass => exact apt_pseudoClassVariants around
  case screen => exact apt_screenVariants around
  case group | peer | supports | data | aria => exact hone _ trivial
  case dark => exact hone _ (apt_template fun hname => absurd hname (by decide))
  case media => exact apt_mediaVariants around
  case display | position => exact apt_keywords
  case rotate | content =>
    exact htwo _ _ (apt_lookup rfl fun _ _ => StyleTree.flatAt_of_declarations
      (List.forall_mem_cons.mpr ⟨rfl, List.forall_mem_singleton.mpr rfl⟩) _)
  case fontSize => exact hone _ (apt_lookup rfl fun _ _ =>
    StyleTree.flatAt_of_declarations isTree_of_mem_fontSizeStyle _)
  case placeholderColor =>
    exact hone _ (apt_lookup rfl fun _ _ => StyleTree.flatAt_nest (by decide))
  -- the others are tables
  all_goals exact apt_lookups rfl

theorem apt_plugins : ∀ p ∈ plugins, ∀ around, ∀ r ∈ p.register around, Apt r := by
  intro p hp
  rw [plugins, ← List.map_uncurry_zip_eq_zipWith] at hp
  obtain ⟨⟨name, handler⟩, hboth, rfl⟩ := List.mem_map.mp hp
  exact apt_handlers handler (List.of_mem_zip hboth).2

end Builtin

/-! ## The registry of the built-in plugins -/

namespace Registry

open Builtin (Apt aside asides withContent)

variable {strict : Bool} {around : Surroundings} {ps : List Plugin} {registry : Registry}
  (hps : ∀ p ∈ ps, ∀ r ∈ p.register around, Apt r)
  (hbuild : build strict around ps = .ok registry) {name : Text}

include hps hbuild

theorem flatAt_of_apt {spec : UtilitySpec} (hspec : spec ∈ registry.utilities.specs name)
    {u : LookupUtility} (hrule : spec.rule = .lookup u) : u.FlatAt "content" := by
  rw [specs_build hbuild, List.mem_flatMap] at hspec
  obtain ⟨p, hp, hspec⟩ := hspec
  obtain ⟨r, hr, hspec⟩ := List.mem_flatMap.mp hspec
  have hapt := hps p hp r hr
  cases r with
  | base tree => exact absurd hspec List.not_mem_nil
  | variant own rule post => exact absurd hspec List.not_mem_nil
  | classes tree flags =>
    obtain ⟨entry, -, rfl⟩ := List.mem_map.mp hspec
    cases hrule
  | utility own v =>
    rw [Registration.specs] at hspec
    split at hspec
    · obtain rfl := List.mem_singleton.mp hspec
      cases hrule
      exact hapt
    · exact absurd hspec List.not_mem_nil

theorem post_of_apt (hname : name ∈ asides) {spec : VariantSpec}
    (hspec : spec ∈ registry.variants.specs name) (hrule : spec.rule = .fixed [aside name]) :
    spec.post = some withContent := by
  rw [variantSpecs_build hbuild, List.mem_flatMap] at hspec
  obtain ⟨p, hp, hspec⟩ := hspec
  obtain ⟨r, hr, hspec⟩ := List.mem_flatMap.mp hspec
  have hapt := hps p hp r hr
  cases r with
  | base tree => exact absurd hspec List.not_mem_nil
  | classes tree flags => exact absurd hspec List.not_mem_nil
  | utility own u => exact absurd hspec List.not_mem_nil
  | variant own rule post =>
    rw [Registration.variantSpecs] at hspec
    split at hspec
    · rename_i hown
      obtain rfl := List.mem_singleton.mp hspec
      cases hrule
      subst hown
      exact hapt hname rfl
    · exact absurd hspec List.not_mem_nil

end Registry

namespace Builtin

/-- The name has one reading among the variants, and what is registered for it is a variant for
what stands aside. -/
structure IsAside (registry : Registry) (name : Text) : Prop where
  specs : ∃ plugin, registry.variants.specs name =
    [⟨plugin, .fixed [aside name], some withContent⟩]
  readings : Reading.all? registry.variants VariantSpec.isLookup name none =
    some [⟨name, none, none, false, none⟩]

/-- What is to be seen of a variant for what stands aside without its function. -/
def looksAside (registry : Registry) (name : Text) : Bool :=
  (match registry.variants.specs name with
    | [⟨_, .fixed templates, _⟩] => templates = [aside name]
    | _ => false) &&
  Reading.all? registry.variants VariantSpec.isLookup name none =
    some [⟨name, none, none, false, none⟩]

theorem isAside_of_looks {registry : Registry} {name : Text}
    (h : looksAside registry name = true)
    (hpost : ∀ spec ∈ registry.variants.specs name, spec.rule = .fixed [aside name] →
      spec.post = some withContent) : IsAside registry name := by
  obtain ⟨hspecs, hreadings⟩ := Bool.and_eq_true_iff.mp h
  refine ⟨?_, of_decide_eq_true hreadings⟩
  split at hspecs
  · rename_i plugin templates post hsole
    obtain rfl := of_decide_eq_true hspecs
    obtain rfl := hpost _ (hsole ▸ List.mem_singleton_self _) rfl
    exact ⟨plugin, hsole⟩
  · cases hspecs

end Builtin

/-- The context takes what it is given and marks nothing important by itself, its utilities nest
nothing under `content`, and it has the variants for what stands before and after an element. -/
structure Context.GivesContent (ctx : Context) : Prop where
  lenient : ctx.strict = false
  important : ctx.env.settings.important = .all false
  wellKeyed : ctx.env.registry.WellKeyed
  plain : ctx.env.registry.PlainAt "content"
  isAside : ∀ name ∈ Builtin.asides, Builtin.IsAside ctx.env.registry name

theorem Context.builtin_givesContent : ∃ ctx, builtin = .ok ctx ∧ ctx.GivesContent := by
  obtain ⟨ctx, hbuiltin, himportant, hplain, hasides⟩ : ∃ ctx, builtin = .ok ctx ∧
      ctx.env.settings.important = .all false ∧
      ctx.env.registry.looksPlainAt "content" = true ∧
      ∀ name ∈ Builtin.asides, Builtin.looksAside ctx.env.registry name = true :=
    exists_of_toOption_any (by decide +kernel)
  obtain ⟨hbuild, -, hlenient⟩ := of_build hbuiltin
  have hnone : (Config.resolve []).plugins = [] := rfl
  have hapt : ∀ p ∈ Builtin.enabled (Config.resolve []).settings ++
      (Config.resolve []).plugins, ∀ r ∈ p.register (Config.resolve []).surroundings,
        Builtin.Apt r := by
    rw [hnone, List.append_nil]
    exact fun p hp => Builtin.apt_plugins p (List.mem_of_mem_filter hp) _
  exact ⟨ctx, hbuiltin,
    { lenient := hlenient
      important := himportant
      wellKeyed :=
        wellKeyed_build (by rw [hnone]; exact fun _ h => absurd h List.not_mem_nil) hbuiltin
      plain := Registry.plainAt_of_looks hplain fun name spec hspec u =>
        Registry.flatAt_of_apt hapt hbuild hspec
      isAside := fun name hname =>
        Builtin.isAside_of_looks (hasides name hname) fun spec hspec =>
          Registry.post_of_apt hapt hbuild hname hspec }⟩

end UtilityCss
