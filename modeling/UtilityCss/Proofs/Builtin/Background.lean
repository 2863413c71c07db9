import UtilityCss.Builtin.Plugins
import UtilityCss.Proofs.Registry.Specs

/-!
# What the built-in plugins register for backgrounds

A background has a color, an image, a position and a size.  Four of the built-in plugins register
a utility for one of these each, all of them under the same name, and no other plugin registers
anything under a name that begins so.
-/

namespace UtilityCss

theorem Selector.bodies_eq_flatMap (outer : List Text) (tree : List (Text × StyleValue)) :
    bodies outer tree = tree.flatMap fun entry => bodiesUnder outer entry.1 entry.2 := by
  induction tree with
  | nil => rfl
  | cons entry rest ih => rw [bodies, ih, List.flatMap_cons]

namespace Builtin

open Value (Kind)

/-- The utility for a property, with the values of a category. -/
def declaring (around : Surroundings) (category : Text) (kinds : List Kind) (property : String) :
    LookupUtility where
  values := around.theme.table category
  kinds := kinds
  flags := { Flags.standard with color := kinds.contains .color }
  render := declare [property]
  post := none

/-- What is registered for backgrounds, the color first. -/
def backgroundSpecs (around : Surroundings) : List UtilitySpec :=
  [⟨"backgroundColor", .lookup (declaring around "backgroundColor" colorKinds "background-color")⟩,
    ⟨"backgroundImage", .lookup (declaring around "backgroundImage" [.image, .url]
      "background-image")⟩,
    ⟨"backgroundPosition", .lookup (declaring around "backgroundPosition" [.backgroundPosition]
      "background-position")⟩,
    ⟨"backgroundSize", .lookup (declaring around "backgroundSize"
      [.backgroundSize, .length, .percentage] "background-size")⟩]

/-- Is nothing registered for a name that begins like those of backgrounds? -/
def isElsewhere (rs : List Registration) : Bool :=
  rs.all fun r => r.names.all fun name => !Text.startsWith name "bg"

/-- Whatever screens there are, the container is the only class. -/
theorem isElsewhere_container (around : Surroundings) : isElsewhere (container around) = true := by
  have hentry : ∀ entry ∈ containerTree around, ∀ c ∈ Selector.bodiesUnder [] entry.1 entry.2,
      c.name = "container" := by
    suffices h : ∀ (widths : List (Text × Text)) (tree : StyleTree),
        (∀ entry ∈ tree, ∀ c ∈ Selector.bodiesUnder [] entry.1 entry.2, c.name = "container") →
        ∀ entry ∈ widths.foldl (fun tree screen => Keyed.put (minWidth screen.2)
          (.tree [(".container", .tree [("max-width", .scalar screen.2)])]) tree) tree,
          ∀ c ∈ Selector.bodiesUnder [] entry.1 entry.2, c.name = "container" by
      refine h _ _ (List.forall_mem_singleton.mpr ?_)
      exact List.forall_mem_singleton.mpr rfl
    intro widths
    induction widths with
    | nil => exact fun _ h => h
    | cons screen rest ih =>
      intro tree htree
      refine ih _ fun entry hentry => ?_
      rcases Keyed.mem_put hentry with rfl | hentry
      · exact List.forall_mem_singleton.mpr rfl
      · exact htree entry hentry
  refine List.all_eq_true.mpr (List.forall_mem_singleton.mpr (List.all_eq_true.mpr ?_))
  intro name hname
  obtain ⟨c, hc, rfl⟩ := List.mem_map.mp hname
  rw [Selector.bodies_eq_flatMap] at hc
  obtain ⟨entry, hmem, hc⟩ := List.mem_flatMap.mp hc
  rw [hentry entry hmem c hc]
  rfl

/-- The handlers of the plugins in front of those for backgrounds. -/
def handlersBefore : List (Surroundings → List Registration) :=
  [preflight, pseudoClassVariants, pseudoElementVariants, groupVariants, peerVariants,
    darkVariant, screenVariants, mediaVariants, supportsVariant, dataVariant, ariaVariant,
    container, display, position, inset, zIndex, margin, padding, width, height, gap, rotate]

/-- The handlers of the plugins behind them. -/
def handlersBehind : List (Surroundings → List Registration) :=
  [opacity, borderWidth, borderColor, borderRadius, boxShadow, textColor, fontSize, fontWeight,
    fontFamily, placeholderColor, content]

theorem plugins_eq : plugins =
    List.zipWith Plugin.mk (names.take 22) handlersBefore ++
      ([⟨"backgroundColor", backgroundColor⟩, ⟨"backgroundImage", backgroundImage⟩,
        ⟨"backgroundPosition", backgroundPosition⟩, ⟨"backgroundSize", backgroundSize⟩] ++
      List.zipWith Plugin.mk (names.drop 26) handlersBehind) := rfl

theorem isElsewhere_of_mem : ∀ handler ∈ handlersBefore ++ handlersBehind, ∀ around,
    isElsewhere (handler around) = true := by
  simp only [handlersBefore, handlersBehind, List.cons_append, List.nil_append,
    List.forall_mem_cons]
  refine ⟨?_, ?_, ?_, ?_, ?_, ?_, ?screens, ?_, ?_, ?_, ?_, ?container, ?_, ?_, ?_, ?_, ?_, ?_,
    ?_, ?_, ?_, ?_, ?_, ?_, ?_, ?_, ?_, ?_, ?_, ?_, ?_, ?_, ?_,
    fun _ h => absurd h List.not_mem_nil⟩ <;> intro around
  case screens =>
    refine List.all_eq_true.mpr fun r hr => ?_
    obtain ⟨screen, -, rfl⟩ := List.mem_map.mp hr
    rfl
  case container => exact isElsewhere_container around
  all_goals rfl

variable {around : Surroundings} {name : Text}

theorem specs_of_isElsewhere {plugin : Plugin}
    (h : isElsewhere (plugin.register around) = true) (hname : Text.startsWith name "bg" = true) :
    plugin.specs around name = [] := by
  refine List.flatMap_eq_nil_iff.mpr fun r hr => Registration.specs_eq_nil fun hmem => ?_
  have hstarts := List.all_eq_true.mp (List.all_eq_true.mp h r hr) name hmem
  rw [hname] at hstarts
  cases hstarts

theorem flatMap_specs_of_isElsewhere {labels : List Text}
    {handlers : List (Surroundings → List Registration)}
    (h : ∀ handler ∈ handlers, isElsewhere (handler around) = true)
    (hname : Text.startsWith name "bg" = true) :
    (List.zipWith Plugin.mk labels handlers).flatMap (Plugin.specs around name) = [] := by
  refine List.flatMap_eq_nil_iff.mpr fun plugin hplugin => ?_
  rw [← List.map_uncurry_zip_eq_zipWith] at hplugin
  obtain ⟨⟨label, handler⟩, hboth, rfl⟩ := List.mem_map.mp hplugin
  exact specs_of_isElsewhere (h handler (List.of_mem_zip hboth).2) hname

/-- Of the names that begin with `bg` the built-in plugins use that one alone, for what a
background takes. -/
theorem flatMap_specs_plugins (hname : Text.startsWith name "bg" = true) :
    plugins.flatMap (Plugin.specs around name) =
      if name = "bg" then backgroundSpecs around else [] := by
  have hother : ∀ handler ∈ handlersBefore ++ handlersBehind, isElsewhere (handler around) = true :=
    fun handler hhandler => isElsewhere_of_mem handler hhandler around
  obtain ⟨hbefore, hbehind⟩ := List.forall_mem_append.mp hother
  rw [plugins_eq, List.flatMap_append, List.flatMap_append,
    flatMap_specs_of_isElsewhere hbefore hname, flatMap_specs_of_isElsewhere hbehind hname,
    List.nil_append, List.append_nil]
  split
  · rename_i hbg
    subst hbg
    rfl
  · rename_i hbg
    have hnone : ∀ {options : LookupOptions} {property : String} {plugin : Text},
        (lookups options [("bg", [property])]).flatMap (Registration.specs plugin name) = [] := by
      intro options property plugin
      exact List.flatMap_eq_nil_iff.mpr <| List.forall_mem_singleton.mpr <|
        if_neg fun h => hbg h.symm
    refine List.flatMap_eq_nil_iff.mpr ?_
    simp only [List.forall_mem_cons]
    exact ⟨hnone, hnone, hnone, hnone, fun _ h => absurd h List.not_mem_nil⟩

end Builtin
end UtilityCss
