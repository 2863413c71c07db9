import UtilityCss.Proofs.Builtin.Background
import UtilityCss.Proofs.Config.Colors
import UtilityCss.Proofs.Context.Reachable
import UtilityCss.Proofs.Evaluation.Colored

/-!
# The colors of backgrounds, by name and in brackets

In a configuration that only adds colors the name of a color and the color itself in brackets give
a background the same style, without a modifier and with one that stands for an opacity.  A name
whose modifier stands for no opacity is rejected.
-/

namespace UtilityCss

open ModifierText (suffix)

namespace Builtin

variable {around : Surroundings} {name color : Text} {m : Option ModifierText}

/-- Of what takes backgrounds only the first has a color that is none of the others. -/
theorem soleColor_backgroundSpecs (hcolor : Value.IsPlainColor color)
    (hentry : (around.theme.table "backgroundColor").lookup name = some (.text color))
    (hwhole : m ≠ none → (around.theme.table "backgroundColor").lookup (name ++ suffix m) = none)
    (hbare : ∀ category ∈ Preset.backgrounds, (around.theme.table category).lookup name = none)
    (hmodified : ∀ category ∈ Preset.backgrounds,
      (around.theme.table category).lookup (name ++ suffix m) = none) :
    UtilitySpec.SoleColor (backgroundSpecs around) name color m
      ⟨"backgroundColor",
        .lookup (declaring around "backgroundColor" colorKinds "background-color")⟩
      fun text => [("background-color", .scalar text)] where
  rule := by
    refine ⟨_, rfl, ⟨rfl, ⟨_, rfl⟩, fun _ _ => rfl, fun _ => ?_, rfl⟩, hentry, hwhole⟩
    exact List.cons_ne_nil _ _
  others := by
    have hignores : ∀ category ∈ Preset.backgrounds, ∀ kinds property,
        kinds ⊆ [Value.Kind.image, .url, .backgroundPosition, .backgroundSize, .length,
          .percentage] → (declaring around category kinds property).Ignores name color m :=
      fun category hcategory kinds property hkinds =>
        ⟨hbare category hcategory, hmodified category hcategory,
          fun kind hkind => hcolor.not_accepts kind (hkinds hkind)⟩
    refine ⟨[], _, rfl, ?_⟩
    simp only [List.nil_append, List.forall_mem_cons]
    exact ⟨⟨_, rfl, hignores _ (by decide) _ _ (by decide)⟩,
      ⟨_, rfl, hignores _ (by decide) _ _ (by decide)⟩,
      ⟨_, rfl, hignores _ (by decide) _ _ (by decide)⟩, fun _ h => absurd h List.not_mem_nil⟩

end Builtin

namespace Context

variable {configs : List Config} {strict : Bool} {ctx : Context}

/-- What stands under `bg` and under names that begin so. -/
theorem specs_background (hadds : Config.AddColors configs)
    (hbuild : build (Config.resolve configs) strict = .ok ctx) {key : Text}
    (hkey : Text.startsWith key "bg" = true) : ctx.env.registry.utilities.specs key =
      if key = "bg" then Builtin.backgroundSpecs (Config.resolve configs).surroundings else [] := by
  have henabled : Builtin.enabled (Config.resolve configs).settings = Builtin.plugins := by
    refine List.filter_eq_self.mpr fun plugin hplugin => List.contains_iff_mem.mpr ?_
    rw [hadds.settings_eq]
    show plugin.name ∈ Builtin.names
    rw [← Builtin.plugins_map_name]
    exact List.mem_map_of_mem hplugin
  rw [Registry.specs_build (of_build hbuild).1, henabled, hadds.plugins_eq, List.append_nil,
    Builtin.flatMap_specs_plugins hkey]

theorem isCore_background {name : Text} (h : ClassList.IsCore .colon name) :
    ClassList.IsCore .colon ("bg".toList ++ '-' :: name) where
  ne_nil := List.cons_ne_nil _ _
  isNameChar := List.forall_mem_append.mpr
    ⟨by decide, List.forall_mem_cons.mpr ⟨by decide, h.isNameChar⟩⟩
  slash hmem := by
    rcases List.mem_append.mp hmem with hmem | hmem
    · exact absurd hmem (by decide)
    · exact h.slash ((List.mem_cons.mp hmem).resolve_left (by decide))
  separator := by
    have hcons : ∀ {c : Char} {t : Text}, ':' ≠ c → Text.includes t [':'] = false →
        Text.includes (c :: t) [':'] = false := by
      intro c t hc ht
      rw [Bracketed.includes_cons, Text.startsWith_cons_singleton, ht, decide_eq_false hc]
      rfl
    exact hcons (by decide) (hcons (by decide) (hcons (by decide) h.separator))

section

variable (hadds : Config.AddColors configs)
  (hbuild : build (Config.resolve configs) strict = .ok ctx) {name color : Text}
  (hentry : (ctx.env.theme.table "colors").lookup name = some (.text color))
  (hcolor : Value.IsPlainColor color)
  (hother : ∀ category ∈ Preset.backgrounds, (ctx.env.theme.table category).lookup name = none)
  {m : Option ModifierText}
  (hwhole : m ≠ none → (ctx.env.theme.table "colors").lookup (name ++ suffix m) = none)

include hadds hbuild hentry hcolor hother hwhole

/-- The utility for the colors of backgrounds is the only one for a color that was added. -/
theorem soleColor_background : ∃ spec,
    UtilitySpec.SoleColor (ctx.env.registry.utilities.specs "bg") name color m spec fun text =>
      [("background-color", .scalar text)] := by
  have htheme := (settings_of_build hbuild).2.1
  have hcolors : ctx.env.theme.table "backgroundColor" = ctx.env.theme.table "colors" := by
    rw [htheme]
    exact Theme.table_eq_of_member? (hadds.member?_backgroundColor)
  have hmodified : ∀ category ∈ Preset.backgrounds,
      (ctx.env.theme.table category).lookup (name ++ suffix m) = none := by
    intro category hcategory
    cases m with
    | none =>
      rw [suffix, List.append_nil]
      exact hother category hcategory
    | some m =>
      rw [htheme]
      exact hadds.lookup_background hcategory (List.mem_append_right _ List.mem_cons_self)
  rw [← hcolors] at hentry hwhole
  rw [htheme] at hentry hwhole hother hmodified
  rw [specs_background hadds hbuild rfl, if_pos rfl]
  exact ⟨_, Builtin.soleColor_backgroundSpecs hcolor hentry hwhole hother hmodified⟩

/-- Let every layer of the configurations be that of the built-in preset or only add colors.  Let a
color be written in hexadecimal or by its name, and let it have a name that no image, position or
size of backgrounds has.  Without a modifier, and with one that stands for an opacity, the name and
the color in brackets give the same style, unless the name with its modifier is itself the name of
a color.  With any other modifier the name is rejected. -/
theorem evaluate_background (hname : ClassList.IsCore .colon name) (hdefault : name ≠ "DEFAULT")
    (hm : ∀ x ∈ m, x.Writable .colon) :
    let named := "bg-".toList ++ (name ++ suffix m)
    let bracketed := "bg-[".toList ++ (color ++ ']' :: suffix m)
    match ctx.env.opacityFor? .color m with
    | some opacity =>
      let style : Evaluated :=
        ⟨[("background-color", .scalar (Value.shade color opacity))], []⟩
      ctx.evaluate named = .ok style ∧ ctx.evaluate bracketed = .ok style
    | none => ctx.evaluate named =
      if strict then .error (.rejected named [⟨.utilityNotFound, ⟨0, named⟩⟩]) else .ok {} := by
  intro named bracketed
  obtain ⟨hsettings, -, hseparator⟩ := settings_of_build hbuild
  rw [hadds.settings_eq] at hsettings hseparator
  have hsep : ctx.env.separator = .colon := (Except.ok.inj hseparator).symm
  have hlead : ctx.env.settings.lead = [] := by rw [hsettings]; rfl
  have himportant : ctx.env.settings.important = .all false := by rw [hsettings]; rfl
  obtain ⟨spec, hsole⟩ := soleColor_background hadds hbuild hentry hcolor hother hwhole
  have hlonger : ∀ rest, ctx.env.registry.utilities.specs ("bg".toList ++ '-' :: rest) = [] := by
    intro rest
    rw [specs_background hadds hbuild rfl, if_neg]
    exact fun h => List.cons_ne_nil _ _ (List.append_right_eq_self.mp h)
  have hkey : ClassList.IsCore ctx.env.separator "bg" := by
    rw [hsep]
    decide
  have hdistinct : ∀ text : Text,
      Keyed.Distinct ([("background-color", .scalar text)] : StyleTree) :=
    fun _ => List.nodup_singleton _
  rw [← hsep] at hm
  have hnamed := Environment.evaluate_named hlead himportant hkey (by decide) hsole hdistinct hm
    hname.ne_nil hdefault (hsep ▸ isCore_background hname) hlonger
  cases hopacity : ctx.env.opacityFor? .color m with
  | some opacity =>
    have hbracketed := Environment.evaluate_bracketed hlead himportant hkey (by decide) hsole
      hdistinct hm hcolor hopacity
    rw [hopacity] at hnamed
    refine ⟨?_, ?_⟩
    · exact (congrArg (ctx.answer named) hnamed).trans (ctx.answer_pure _ _)
    · exact (congrArg (ctx.answer bracketed) hbracketed).trans (ctx.answer_pure _ _)
  | none =>
    rw [hopacity] at hnamed
    refine (congrArg (ctx.answer named) hnamed).trans ?_
    rw [answer, (of_build hbuild).2.2]
    rfl

end

/-- A color that was added as a shade, with an opacity in percent, with one in brackets, and with a
modifier that is none. -/
theorem evaluate_background_shade :
    let configs := [Config.withColors (.object [("brand", .object [("x", .text "#0aF")])])]
    let style (color : Text) : Evaluated := ⟨[("background-color", .scalar color)], []⟩
    ∃ ctx, build (Config.resolve configs) true = .ok ctx ∧
      (ctx.evaluate "bg-brand-x/50" = .ok (style "rgb(0 170 255 / 0.5)") ∧
        ctx.evaluate "bg-[#0aF]/50" = .ok (style "rgb(0 170 255 / 0.5)")) ∧
      (ctx.evaluate "bg-brand-x/[.3]" = .ok (style "rgb(0 170 255 / .3)") ∧
        ctx.evaluate "bg-[#0aF]/[.3]" = .ok (style "rgb(0 170 255 / .3)")) ∧
      ctx.evaluate "bg-brand-x/half" = .error (.rejected "bg-brand-x/half"
        [⟨.utilityNotFound, ⟨0, "bg-brand-x/half"⟩⟩]) := by
  intro configs style
  let name : Text := "brand-x"
  let opacities : List (ModifierText × Option (Option Text)) :=
    [(⟨"50", false⟩, some (some "0.5")), (⟨".3", true⟩, some (some ".3")), (⟨"half", false⟩, none)]
  obtain ⟨ctx, hbuild, hentry, hother, hmodifiers⟩ : ∃ ctx,
      build (Config.resolve configs) true = .ok ctx ∧
      List.lookup name (ctx.env.theme.table "colors") = some (.text "#0aF") ∧
      (∀ category ∈ Preset.backgrounds,
        List.lookup name (ctx.env.theme.table category) = none) ∧
      ∀ p ∈ opacities,
        List.lookup (name ++ suffix (some p.1)) (ctx.env.theme.table "colors") = none ∧
          ctx.env.opacityFor? .color (some p.1) = p.2 :=
    exists_of_toOption_any (by decide +kernel)
  have hcolor : Value.IsPlainColor "#0aF" := ⟨by decide, _, rfl, fun _ _ h => by cases h⟩
  have hwritable : ∀ p ∈ opacities, ∀ m ∈ some p.1, m.Writable .colon := by decide
  have hstyle := fun p (hp : p ∈ opacities) => evaluate_background
    (Config.addColors_withColors _) hbuild hentry hcolor hother (fun _ => (hmodifiers p hp).1)
    (by decide) (by decide) (hwritable p hp)
  have hpercent := hstyle (⟨"50", false⟩, some (some "0.5")) (by decide)
  have hwritten := hstyle (⟨".3", true⟩, some (some ".3")) (by decide)
  have hnone := hstyle (⟨"half", false⟩, none) (by decide)
  rw [(hmodifiers (⟨"50", false⟩, some (some "0.5")) (by decide)).2] at hpercent
  rw [(hmodifiers (⟨".3", true⟩, some (some ".3")) (by decide)).2] at hwritten
  rw [(hmodifiers (⟨"half", false⟩, none) (by decide)).2] at hnone
  exact ⟨ctx, hbuild, hpercent, hwritten, hnone⟩

/-- A name that is longer by its modifier, the name `DEFAULT`, no name at all, a mark in the place
of a modifier, and colors that were added by a function of the colors of backgrounds: in brackets
the color is painted, and by its name it is another or none. -/
theorem evaluate_background_exceptions :
    let named : List (Text × Data) :=
      [("a", .text "#000"), ("a/50", .text "#fff"), ("DEFAULT", .text "#00f"), ("", .text "#0f0")]
    let asking : ThemeValue :=
      .computed (.lookup "backgroundColor" fun _ => .answer (.object [("a", .text "#000")]))
    let style (color : Text) : Evaluated := ⟨[("background-color", .scalar color)], []⟩
    (∃ ctx, build (Config.resolve [Config.withColors (.object named)]) false = .ok ctx ∧
      (∀ entry ∈ named, (ctx.env.theme.table "colors").lookup entry.1 = some entry.2 ∧
        ∀ category ∈ Preset.backgrounds,
          (ctx.env.theme.table category).lookup entry.1 = none) ∧
      ctx.evaluate "bg-a/50" = .ok (style "#fff") ∧
      ctx.evaluate "bg-[#000]/50" = .ok (style "rgb(0 0 0 / 0.5)") ∧
      ctx.evaluate "bg-DEFAULT" = .ok {} ∧ ctx.evaluate "bg-[#00f]" = .ok (style "#00f") ∧
      ctx.evaluate "bg-" = .ok {} ∧ ctx.evaluate "bg-[#0f0]" = .ok (style "#0f0") ∧
      ctx.evaluate "bg-a/!" = .ok {} ∧ ctx.evaluate "bg-[#000]/!" = .ok (style "#000")) ∧
    ∃ ctx, build (Config.resolve [⟨{ extend := [("colors", asking)] }, none, []⟩]) false = .ok ctx ∧
      List.lookup ("a" : Text) (ctx.env.theme.table "colors") = some (.text "#000") ∧
      ctx.evaluate "bg-a" = .ok {} ∧ ctx.evaluate "bg-[#000]" = .ok (style "#000") := by
  exact ⟨exists_of_toOption_any (by decide +kernel), exists_of_toOption_any (by decide +kernel)⟩

end Context
end UtilityCss
