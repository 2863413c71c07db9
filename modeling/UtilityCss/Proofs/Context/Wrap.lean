import UtilityCss.Proofs.Evaluation.Chain

/-!
# What a chain of variants does

A text of variants can be wrapped around style trees, it can be looked up if it is a
single variant, and it can stand in front of an expression.  A chain whose variants all
resolve does the same to styles in each of these ways.
-/

namespace UtilityCss
namespace Context

open ClassList

variable {ctx : Context}

/-! ## The wrapper of a text -/

/-- The expressions that a text is read as when its wrapper is asked for. -/
def wrapExprs (ctx : Context) (input : Text) : List ClassList.Expr :=
  if (Text.trim input).isEmpty then []
  else (read ctx.env.separator (ctx.env.separator.closeWith (Text.trim input))).exprs

/-- The variants of a text whose wrapper is asked for, in the order in which they are written. -/
def variantsOf (ctx : Context) (input : Text) : List ClassList.Variant :=
  (ctx.wrapExprs input).flatMap Expr.spine

theorem wrap_eq_answer (ctx : Context) (input : Text) :
    ∃ t, ctx.wrap input = ctx.answer t (ctx.env.wrapExprs (ctx.wrapExprs input) .identity) := by
  unfold wrap wrapExprs
  by_cases hempty : (Text.trim input).isEmpty = true
  · refine ⟨[], ?_⟩
    rw [if_pos hempty, if_pos hempty]
    exact (ctx.answer_pure [] _).symm
  · refine ⟨ctx.env.separator.closeWith (Text.trim input), ?_⟩
    rw [if_neg hempty, if_neg hempty]
    rfl

theorem sound_of_mem_wrapExprs (ctx : Context) (input : Text) :
    ∀ e ∈ ctx.wrapExprs input, ∀ v ∈ e.spine, v.Sound := by
  unfold wrapExprs
  split
  · exact fun e he => absurd he List.not_mem_nil
  · exact Environment.sound_of_mem_spine _ _

theorem sound_of_mem_variantsOf {input : Text} {x : ClassList.Variant}
    (hx : x ∈ ctx.variantsOf input) : x.Sound := by
  obtain ⟨e, he, hxe⟩ := List.mem_flatMap.mp hx
  exact ctx.sound_of_mem_wrapExprs input e he x hxe

/-- A text that consists of variants that resolve has their wrapper. -/
theorem wrap_of_resolves {input : Text}
    (h : ∀ e ∈ ctx.wrapExprs input, e.isBare = true ∧ ∀ v ∈ e.spine, ctx.env.Resolves v) :
    ctx.wrap input = .ok (ctx.env.kept (ctx.variantsOf input)) := by
  have hsound := ctx.sound_of_mem_wrapExprs input
  have hclean : ctx.env.wrapExprs (ctx.wrapExprs input) .identity =
      pure (ctx.env.kept (ctx.variantsOf input)) := by
    ext : 1
    · exact Environment.value_wrapExprs _ _
    · exact (Environment.diagnostics_wrapExprs _ _ hsound).mpr h
    · exact Environment.torn_wrapExprs _ _ hsound
  obtain ⟨t, ht⟩ := ctx.wrap_eq_answer input
  rw [ht, hclean, answer_pure]

/-- A chain is read as it stands, the separator being there already. -/
theorem wrapExprs_of_isChain {v : Text} {vs : List ClassList.Variant}
    (h : IsChain ctx.env.separator v vs) :
    ∃ e : Option ClassList.Expr, (read ctx.env.separator v).exprs = e.toList ∧
      ctx.wrapExprs v = e.toList ∧ Around none vs e := by
  obtain ⟨e, hread, haround⟩ := h.reads
  refine ⟨e, hread, ?_, haround⟩
  by_cases hvs : vs = []
  · subst hvs
    cases haround
    rw [h.eq_nil]
    rfl
  · have hne : (Text.trim v).isEmpty = false := by
      rw [h.trimmed]
      simpa using h.ne_nil hvs
    rw [wrapExprs, hne, h.closeWith_trim hvs]
    exact hread

/-- The variants of a chain are the variants that it is a chain of, and nothing is behind
them. -/
theorem variantsOf_of_isChain {v : Text} {vs : List ClassList.Variant}
    (h : IsChain ctx.env.separator v vs) :
    ctx.variantsOf v = vs ∧ ∀ e ∈ ctx.wrapExprs v, e.isBare = true ∧ e.spine = vs := by
  obtain ⟨e, -, hexprs, haround⟩ := wrapExprs_of_isChain h
  rw [variantsOf, hexprs]
  cases e with
  | none =>
    obtain rfl := haround.eq_nil_of_none
    exact ⟨rfl, fun e he => absurd he List.not_mem_nil⟩
  | some e =>
    obtain ⟨hspine, hbare⟩ := haround.spine_eq
    refine ⟨by simp [hspine], ?_⟩
    intro x hx
    rw [List.mem_singleton.mp hx]
    exact ⟨hbare, hspine⟩

theorem sound_of_isChain {v : Text} {vs : List ClassList.Variant}
    (h : IsChain ctx.env.separator v vs) : ∀ x ∈ vs, x.Sound := by
  intro x hx
  rw [← (variantsOf_of_isChain h).1] at hx
  exact sound_of_mem_variantsOf hx

theorem wrap_of_isChain {v : Text} {vs : List ClassList.Variant}
    (h : IsChain ctx.env.separator v vs) (hresolve : ∀ x ∈ vs, ctx.env.Resolves x) :
    ctx.wrap v = .ok (ctx.env.kept vs) := by
  obtain ⟨hvariants, hexprs⟩ := variantsOf_of_isChain h
  rw [← hvariants]
  refine wrap_of_resolves fun e he => ?_
  obtain ⟨hbare, rfl⟩ := hexprs e he
  exact ⟨hbare, hresolve⟩

/-! ## Chains that resolve -/

/-- What a chain does in front of an expression is what its wrapper does to the styles of
the expression; in a strict context the one fails where the other does. -/
theorem evaluate_of_isChain {v : Text} {vs : List ClassList.Variant}
    (h : IsChain ctx.env.separator v vs) (hresolve : ∀ x ∈ vs, ctx.env.Resolves x)
    (hlasts : ∀ x ∈ vs, ctx.env.Lasts x) {u : Text}
    (hinside : ReadsInside ctx.env.separator v vs u) :
    (ctx.evaluate (v ++ u)).toOption =
      (ctx.evaluate u).toOption.map fun styles => styles.wrapped (ctx.env.kept vs) := by
  obtain ⟨inner, outer, hinner, houter, haround⟩ := hinside
  have hsound := sound_of_isChain h
  have hreport : ctx.env.evaluate (v ++ u) =
      (fun x => x.wrapped (ctx.env.kept vs)) <$> (ctx.env.evaluate u).shift (Text.bytes v) := by
    have hshift : ctx.env.exprs .direct (ctx.env.applyWithin Environment.applyLevels) false
        (inner.map (Expr.shift (Text.bytes v))).toList {} =
          (ctx.env.exprs .direct (ctx.env.applyWithin Environment.applyLevels) false
            inner.toList {}).shift (Text.bytes v) := by
      rw [← Environment.exprs_shift (Environment.diagnostics_applyWithin _)]
      cases inner <;> rfl
    show ctx.env.exprs .direct _ false (read ctx.env.separator (v ++ u)).exprs {} =
      (fun x => x.wrapped (ctx.env.kept vs)) <$>
        (ctx.env.exprs .direct _ false (read ctx.env.separator u).exprs {}).shift _
    rw [hinner, houter, ← hshift]
    exact Environment.exprs_of_around false haround (fun x hx => ⟨hsound x hx, hresolve x hx⟩)
      hlasts
  rw [evaluate, evaluate, answer_toOption, answer_toOption, hreport]
  simp only [Report.torn_map, Report.diagnostics_map, Report.value_map, Report.torn_shift,
    Report.diagnostics_shift, Report.value_shift, List.isEmpty_map]
  split <;> rfl

/-- The wrapper of a chain in front of a chain is the one around the other. -/
theorem wrap_append_of_isChain (hregular : ctx.env.registry.Regular) {v u : Text}
    {vs ws : List ClassList.Variant} (hv : IsChain ctx.env.separator v vs)
    (hvs : ∀ x ∈ vs, ctx.env.Resolves x) (hu : IsChain ctx.env.separator u ws)
    (hws : ∀ x ∈ ws, ctx.env.Resolves x) (hinside : ReadsInside ctx.env.separator v vs u) :
    ∃ w, ctx.wrap (v ++ u) = .ok w ∧ ∀ tree,
      w.apply tree = (ctx.env.kept vs).apply ((ctx.env.kept ws).apply tree) := by
  have hresolve : ∀ x ∈ vs ++ chainShift (Text.bytes v) ws, ctx.env.Resolves x := by
    intro x hx
    rcases List.mem_append.mp hx with hx | hx
    · exact hvs x hx
    · rw [chainShift_eq_map] at hx
      obtain ⟨y, hy, rfl⟩ := List.mem_map.mp hx
      exact Environment.resolves_shift.mpr (hws y hy)
  have hlasting : (ctx.env.kept ws).Lasting :=
    Environment.lasting_kept fun x _ => Environment.lasts_of_regular hregular x
  refine ⟨_, wrap_of_isChain (hv.append hu hinside) hresolve, fun tree => ?_⟩
  rw [Environment.kept_append, Environment.kept_chainShift, Wrapper.apply_around _ hlasting]

/-- A variant that is not a group is found under its text with the wrapper of the text. -/
theorem findVariant_of_isChain {v : Text} {x : ClassList.Variant}
    (h : IsChain ctx.env.separator v [x]) (hresolve : ctx.env.Resolves x)
    (hgroup : ∀ source members, x ≠ .group source members) :
    ∃ found, ctx.findVariant v = .ok (some found) ∧ found.wrapper = ctx.env.kept [x] := by
  obtain ⟨e, hread, haround⟩ := h.reads
  obtain ⟨w, hw⟩ := Option.isSome_iff_exists.mp hresolve
  have hresolved : (ctx.env.resolved? x).value = some w := by
    cases x with
    | group source members => exact absurd rfl (hgroup source members)
    | named source head => exact hw
    | selector source inner => exact hw
  obtain ⟨found, hfound, rfl⟩ :
      ∃ found, ctx.env.singleVariant x = .ok found ∧ found.wrapper = w := by
    rw [Environment.resolved?, Report.value_bind] at hresolved
    split at hresolved
    · rename_i found hfound
      exact ⟨found, hfound, Option.some.inj hresolved⟩
    · exact absurd hresolved (by simp)
  refine ⟨found, ?_, ?_⟩
  · have hbare : ∃ source, (read ctx.env.separator v).exprs = [.span source x none] := by
      cases haround with
      | outside hnone =>
        cases hnone
        exact ⟨_, hread⟩
    obtain ⟨source, hbare⟩ := hbare
    unfold findVariant Environment.findVariant
    dsimp only
    rw [h.closeWith_trim (List.cons_ne_nil x []), hbare]
    dsimp only
    rw [hfound]
    rfl
  · rw [Environment.kept, hw, Environment.kept, Wrapper.around_identity]
    rfl

/-- For a chain `v` whose variants all resolve there is one wrapper that says what `v` does.
`wrap` answers with it; in front of an expression `v` applies it to both trees of the
expression's styles; in front of another chain it is applied after the wrapper of that
chain; and if `v` is a single variant, not a group, that variant is found with a wrapper
that does the same. -/
theorem wrap_agrees (ctx : Context) (hregular : ctx.env.registry.Regular) (v : Text)
    (vs : List ClassList.Variant) (hv : IsChain ctx.env.separator v vs)
    (hresolve : ∀ x ∈ vs, ctx.env.Resolves x) :
    ∃ w, ctx.wrap v = .ok w ∧
      (∀ u, ReadsInside ctx.env.separator v vs u →
        (ctx.evaluate (v ++ u)).toOption =
          (ctx.evaluate u).toOption.map fun styles =>
            ⟨w.apply styles.tree, w.apply styles.important⟩) ∧
      (∀ u us, IsChain ctx.env.separator u us → (∀ x ∈ us, ctx.env.Resolves x) →
        ReadsInside ctx.env.separator v vs u →
        ∃ inner both, ctx.wrap u = .ok inner ∧ ctx.wrap (v ++ u) = .ok both ∧
          ∀ tree, both.apply tree = w.apply (inner.apply tree)) ∧
      (∀ x, vs = [x] → (∀ source members, x ≠ .group source members) →
        ∃ found, ctx.findVariant v = .ok (some found) ∧
          ∀ tree, found.wrapper.apply tree = w.apply tree) := by
  refine ⟨ctx.env.kept vs, wrap_of_isChain hv hresolve, ?_, ?_, ?_⟩
  · intro u hinside
    have hlasts := fun x (_ : x ∈ vs) => Environment.lasts_of_regular hregular x
    exact evaluate_of_isChain hv hresolve hlasts hinside
  · intro u us hu hus hinside
    obtain ⟨both, hboth, happly⟩ := wrap_append_of_isChain hregular hv hresolve hu hus hinside
    exact ⟨_, both, wrap_of_isChain hu hus, hboth, happly⟩
  · rintro x rfl hgroup
    obtain ⟨found, hfound, hwrapper⟩ :=
      findVariant_of_isChain hv (hresolve x List.mem_cons_self) hgroup
    exact ⟨found, hfound, fun tree => by rw [hwrapper]⟩

/-- A group of variants and a variant with two templates, in front of a property and in front of
another variant; that one is found by itself. -/
theorem wrap_agrees_named :
    let variant (name : Char) (templates : List Text) : Text × List VariantSpec :=
      ([name], [⟨[], .fixed templates, none⟩])
    let variants : SpecTable VariantSpec := [variant 'h' [['&', 'h']], variant 'i' [['&', 'i']],
      variant 'j' [['&', 'x'], ['y']], variant 'k' [['z']]]
    let settings : Settings := ⟨[':'], [], .all false, .media, []⟩
    let ctx : Context := ⟨⟨⟨.null⟩, settings, .colon, ⟨[], variants, []⟩⟩, [], true⟩
    let v : Text := ['(', 'h', ' ', 'i', ')', ':', 'j', ':']
    let u : Text := ['[', 'c', ':', 'd', ']']
    let styled : StyleTree := [(['c'], .scalar ['d'])]
    ctx.evaluate (v ++ u) = .ok
        ⟨[(['&', 'h', ',', ' ', '&', 'i'],
          .tree [(['&', 'x'], .tree styled), (['y'], .tree styled)])], []⟩ ∧
      (∃ w, ctx.wrap v = .ok w ∧
        (ctx.evaluate (v ++ u)).toOption = (ctx.evaluate u).toOption.map (fun styles =>
          ⟨w.apply styles.tree, w.apply styles.important⟩) ∧
        ∃ inner both, ctx.wrap ['k', ':'] = .ok inner ∧ ctx.wrap (v ++ ['k', ':']) = .ok both ∧
          ∀ tree, both.apply tree = w.apply (inner.apply tree)) ∧
      ∃ w found, ctx.wrap ['k', ':'] = .ok w ∧ ctx.findVariant ['k', ':'] = .ok (some found) ∧
        ∀ tree, found.wrapper.apply tree = w.apply tree := by
  intro variant variants settings ctx v u styled
  have hregular : ctx.env.registry.Regular := by
    have hone : ∀ name templates, templates ≠ [] →
        ∀ spec ∈ (variant name templates).2, spec.Regular := by
      refine fun name templates hne => List.forall_mem_singleton.mpr
        ⟨?_, fun post hpost => absurd hpost (by simp)⟩
      intro templates' hrule
      rwa [← VariantRule.fixed.inj hrule]
    refine Registry.regular_of_entries ?_
    show ∀ entry ∈ [_, _, _, _], _
    simp only [List.forall_mem_cons]
    exact ⟨hone _ _ (by simp), hone _ _ (by simp), hone _ _ (by simp), hone _ _ (by simp), by simp⟩
  let name (start : Nat) (c : Char) : ClassList.Variant :=
    .named ⟨start, [c]⟩ (.plain ⟨start, [c]⟩ none)
  let group : ClassList.Variant := .group ⟨0, v.take 5⟩ [[name 1 'h'], [name 3 'i']]
  let property (n : Nat) : Expr := .property ⟨n, u⟩ ⟨n + 1, ['c', ':', 'd']⟩ false true
  let bare (n : Nat) : Expr := .span ⟨n, ['k', ':']⟩ (name n 'k') none
  -- what is read with a text behind the chain
  let whole (t : Text) (inner : Option Expr) : Expr :=
    .span ⟨0, v ++ t⟩ group (some (.span ⟨6, ['j', ':'] ++ t⟩ (name 6 'j') inner))
  have hread : (read .colon v).exprs = [whole [] none] ∧
      (read .colon (v ++ u)).exprs = [whole u (some (property 8))] ∧
      (read .colon (v ++ ['k', ':'])).exprs = [whole ['k', ':'] (some (bare 8))] := by
    dsimp only [v, u, whole, group, name, property, bare]
    exact ⟨rfl, rfl, rfl⟩
  have hv : IsChain .colon v [group, name 6 'j'] :=
    ⟨by decide, some (whole [] none), hread.1, .outside (.outside .here)⟩
  have hk : IsChain .colon ['k', ':'] [name 0 'k'] :=
    ⟨by decide, some (bare 0), rfl, .outside .here⟩
  have hproperty : ReadsInside .colon v [group, name 6 'j'] u :=
    ⟨some (property 0), some (whole u (some (property 8))), rfl, hread.2.1,
      .outside (.outside .here)⟩
  have hvariant : ReadsInside .colon v [group, name 6 'j'] ['k', ':'] :=
    ⟨some (bare 0), some (whole ['k', ':'] (some (bare 8))), rfl, hread.2.2,
      .outside (.outside .here)⟩
  obtain ⟨w, hw, hspan, hcompose, -⟩ := wrap_agrees ctx hregular v _ hv (by decide)
  obtain ⟨w', hw', -, -, hfound⟩ := wrap_agrees ctx hregular ['k', ':'] _ hk (by decide)
  obtain ⟨found, hfind, happly⟩ := hfound _ rfl fun source members h => by cases h
  exact ⟨by decide, ⟨w, hw, hspan u hproperty, hcompose _ _ hk (by decide) hvariant⟩,
    w', found, hw', hfind, happly⟩

end Context
end UtilityCss
