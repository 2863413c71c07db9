import UtilityCss.Proofs.Builtin.WellKeyed
import UtilityCss.Proofs.Context.Diagnostics
import UtilityCss.Proofs.Registry.Claims

/-!
# What strictness changes

A strict context is not built if a static registration is claimed twice, and the error names the
first such claim.  Otherwise it is the lenient context, except that it is strict: what is
registered and the global styles are the same, and so are the styles of every text that it does
not reject.  It rejects a text exactly if there is something to note.
-/

namespace UtilityCss

namespace ResolvedConfig

variable (config : ResolvedConfig)

/-- The plugins that register in a context of the configuration, in order. -/
def registering : List Plugin := Builtin.enabled config.settings ++ config.plugins

/-- The keys that are claimed for static registrations, in order. -/
def claims : List (Registry.Table × Text) :=
  config.registering.flatMap (Plugin.claims config.surroundings)

/-- The duplicate is the first key that is claimed twice. -/
def FirstRepeated (d : Registry.Duplicate) : Prop :=
  Registry.FirstRepeated config.surroundings config.registering d

variable {config}

theorem exists_firstRepeated_iff : (∃ d, config.FirstRepeated d) ↔ ¬config.claims.Nodup := by
  constructor
  · rintro ⟨d, hd⟩ hnodup
    have hnone : Registry.repeated? [] config.claims = none :=
      Registry.repeated?_eq_none_iff.mpr ⟨hnodup, fun _ _ => List.not_mem_nil⟩
    have hsome : Registry.repeated? [] config.claims = some d :=
      Registry.repeated?_claims_eq_some_iff.mpr hd
    exact Option.some_ne_none d (hsome.symm.trans hnone)
  · intro hrepeated
    have hne : Registry.repeated? [] config.claims ≠ none :=
      fun hnone => hrepeated (Registry.repeated?_eq_none_iff.mp hnone).1
    obtain ⟨d, hd⟩ := Option.ne_none_iff_exists'.mp hne
    exact ⟨d, Registry.repeated?_claims_eq_some_iff.mp hd⟩

end ResolvedConfig

namespace Context

variable {config : ResolvedConfig} {separator : Separator}

/-- A context that was made strict or lenient answers a text that leaves nothing to note as
before, and a strict one answers no other. -/
theorem css_strict_eq_ok_iff {ctx : Context} (hlenient : ctx.strict = false) {input : Text}
    {tree : StyleTree} : (ctx.withStrict true).css input = .ok tree ↔
      ctx.css input = .ok tree ∧ (ctx.env.evaluate input).diagnostics = [] := by
  have hmap : ∀ {α β : Type} {f : α → β} {x : Except CompileError α} {b : β},
      x.map f = .ok b ↔ ∃ a, x = .ok a ∧ f a = b := by
    intro α β f x b
    cases x <;> simp [Except.map]
  unfold css evaluate
  rw [hmap, hmap]
  simp only [answer_eq_ok_iff, hlenient, Bool.false_eq_true, false_imp_iff, true_and]
  constructor
  · rintro ⟨styles, ⟨htorn, hnotes, hvalue⟩, htree⟩
    exact ⟨⟨styles, ⟨htorn, hvalue⟩, htree⟩, hnotes rfl⟩
  · rintro ⟨⟨styles, ⟨htorn, hvalue⟩, htree⟩, hnotes⟩
    exact ⟨styles, ⟨htorn, fun _ => hnotes, hvalue⟩, htree⟩

variable (config separator) in
/-- The lenient context of a registry. -/
def assembled (registry : Registry) : Except BuildError Context :=
  let around := config.surroundings
  let env : Environment := ⟨around.theme, around.settings, separator, registry⟩
  let base := env.expand registry.base
  if base.torn then .error .torn else .ok ⟨env, base.value, false⟩

/-- Strictness decides about the registry, and otherwise is only put into the context. -/
theorem build_eq (hseparator : Separator.ofText config.settings.separator = .ok separator)
    (strict : Bool) : build config strict =
      match Registry.build strict config.surroundings config.registering with
      | .error d => .error (.duplicate d)
      | .ok registry =>
        (assembled config separator registry).map fun ctx => ctx.withStrict strict := by
  unfold build ResolvedConfig.registering assembled
  rw [hseparator]
  dsimp only
  cases Registry.build strict config.surroundings _ with
  | error d => rfl
  | ok registry =>
    dsimp only
    rw [apply_ite (Except.map _)]
    rfl

theorem build_strict_of_repeated
    (hseparator : Separator.ofText config.settings.separator = .ok separator)
    {d : Registry.Duplicate} (h : config.FirstRepeated d) :
    build config true = .error (.duplicate d) := by
  rw [build_eq hseparator, Registry.build_of_repeated h]

theorem build_strict_of_nodup
    (hseparator : Separator.ofText config.settings.separator = .ok separator)
    (h : config.claims.Nodup) :
    (build config true = (build config false).map fun ctx => ctx.withStrict true) ∧
      ∀ d, build config true ≠ .error (.duplicate d) := by
  obtain ⟨hagree, registry, hregistry⟩ := Registry.build_of_nodup h
  have hregistry' := hagree.symm.trans hregistry
  rw [build_eq hseparator true, build_eq hseparator false, hregistry, hregistry']
  dsimp only
  unfold assembled
  dsimp only
  split
  · exact ⟨rfl, fun d h => by cases h⟩
  · exact ⟨rfl, fun d h => by cases h⟩

/-- With a usable separator, building a strict context fails for a static registration exactly if
one is claimed twice, and names the first key that is claimed twice of the first plugin that does
so.  Otherwise it has the outcome of building a lenient one, except that the context is strict.
What is registered and the global styles are the same, and the styles of a text are those of the
lenient context if there is nothing to note about it, and none otherwise. -/
theorem build_strict (config : ResolvedConfig) {separator : Separator}
    (hseparator : Separator.ofText config.settings.separator = .ok separator) :
    (∀ d, build config true = .error (.duplicate d) ↔ config.FirstRepeated d) ∧
      ((∃ d, config.FirstRepeated d) ↔ ¬config.claims.Nodup) ∧
      (config.claims.Nodup →
        build config true = (build config false).map fun ctx => ctx.withStrict true) ∧
      ∀ ctx, build config true = .ok ctx → ∃ lenient, build config false = .ok lenient ∧
        ctx.env.registry = lenient.env.registry ∧ ctx.globalStyles = lenient.globalStyles ∧
        ∀ input tree, ctx.css input = .ok tree ↔
          lenient.css input = .ok tree ∧ (lenient.env.evaluate input).diagnostics = [] := by
  have hnodup : ∀ {outcome : Except BuildError Context}, build config true = outcome →
      (∀ d, outcome ≠ .error (.duplicate d)) → config.claims.Nodup := by
    intro outcome houtcome hne
    by_contra hrepeated
    obtain ⟨d, hd⟩ := ResolvedConfig.exists_firstRepeated_iff.mpr hrepeated
    exact hne d (houtcome.symm.trans (build_strict_of_repeated hseparator hd))
  refine ⟨fun d => ⟨fun hbuild => ?_, build_strict_of_repeated hseparator⟩,
    ResolvedConfig.exists_firstRepeated_iff,
    fun h => (build_strict_of_nodup hseparator h).1, fun ctx hbuild => ?_⟩
  · have hrepeated : ¬config.claims.Nodup :=
      fun h => (build_strict_of_nodup hseparator h).2 d hbuild
    obtain ⟨d', hd'⟩ := ResolvedConfig.exists_firstRepeated_iff.mpr hrepeated
    have hsame := (build_strict_of_repeated hseparator hd').symm.trans hbuild
    cases hsame
    exact hd'
  · have h := (build_strict_of_nodup hseparator (hnodup hbuild fun d h => by cases h)).1
    rw [hbuild] at h
    cases hlenient : build config false with
    | error e => rw [hlenient] at h; cases h
    | ok lenient =>
      rw [hlenient] at h
      cases h
      exact ⟨lenient, rfl, rfl, rfl, fun input tree =>
        css_strict_eq_ok_iff (of_build hlenient).2.2⟩

/-- Two plugins.  The second claims a class again, but at another place, then a variant that it has
claimed itself, and then a class of the first.  Without what it claims again the contexts are
built. -/
theorem build_strict_variant :
    let tree : StyleTree := [(".c".toList, .tree [(['a'], .scalar ['1'])])]
    let print : StyleTree := StyleTree.nest "@media print".toList tree
    let first : Plugin := ⟨['p'], fun _ => [.classes tree .standard]⟩
    let second : Plugin := ⟨['q'], fun _ => [.classes print .standard,
      .template ['v'] ["&v".toList], .template ['v'] ["&w".toList], .classes tree .standard]⟩
    let once : Plugin := ⟨['q'], fun _ => [.classes print .standard,
      .template ['v'] ["&v".toList]]⟩
    let settings : Settings := ⟨[':'], [], .all false, .media, []⟩
    build ⟨.null, [first, second], settings⟩ true = .error (.duplicate ⟨.variant, ['v']⟩) ∧
      build ⟨.null, [first, once], settings⟩ true =
        (build ⟨.null, [first, once], settings⟩ false).map
          fun ctx => ctx.withStrict true := by
  intro tree print first second once settings
  have hseparator : Separator.ofText settings.separator = .ok .colon := rfl
  have hrepeated :
      ResolvedConfig.FirstRepeated ⟨.null, [first, second], settings⟩ ⟨.variant, ['v']⟩ :=
    ⟨[first], second, [], [(.utility, "c @media print".toList), (.variant, ['v'])],
      [(.utility, ['c'])], rfl, by decide, by decide, by decide⟩
  exact ⟨((build_strict _ hseparator).1 _).mpr hrepeated,
    (build_strict _ hseparator).2.2.1 (by decide)⟩

/-- A text that names no utility compiles to nothing in a lenient context, and is rejected by the
strict one. -/
theorem build_strict_rejects :
    let config : ResolvedConfig := ⟨.null, [], ⟨[':'], [], .all false, .media, []⟩⟩
    ∃ ctx lenient, build config true = .ok ctx ∧ build config false = .ok lenient ∧
      lenient.css ['x'] = .ok [] ∧
      ctx.css ['x'] = .error (.rejected ['x'] [⟨.utilityNotFound, ⟨0, ['x']⟩⟩]) :=
  ⟨⟨⟨⟨.null⟩, ⟨[':'], [], .all false, .media, []⟩, .colon, .empty⟩, [], true⟩,
    ⟨⟨⟨.null⟩, ⟨[':'], [], .all false, .media, []⟩, .colon, .empty⟩, [], false⟩,
    rfl, rfl, by decide +kernel, by decide +kernel⟩

end Context
end UtilityCss
