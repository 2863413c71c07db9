import UtilityCss.Proofs.Context.Append
import UtilityCss.Proofs.Evaluation.Distribution

/-!
# A variant in front of a group

A class list may have a variant in front of a group, or the variant in front of each member of the
group.  If the variant does nothing to trees but wrap them, and its templates begin with different
levels, both have the same styles, with the keys in the same order: one wraps what was merged, the
other merges what was wrapped.  The members may be anything, and may fail to resolve.

What is merged inside one member has to agree on where something is nested.  In the one case a
group among the members is merged into the others member by member.  In the other it is evaluated
by itself before it is wrapped, and a declaration in it that something is nested over is forgotten
before it could replace anything.  That the styles of the members agree with each other is neither
enough nor needed.

In two class lists the same expressions stand at different places, so what is read off them is
compared up to moving it.
-/

namespace UtilityCss

open ClassList

/-- The reports lead to the same answers. -/
structure Report.AnswersAlike {α : Type} (r s : Report α) : Prop where
  value : r.value = s.value
  quiet : r.diagnostics = [] ↔ s.diagnostics = []
  torn : r.torn = s.torn

/-! ## The two class lists -/

namespace ClassList

/-- The class list reads as the variant in front of a group of the expressions. -/
def ReadsGrouped (sep : Separator) (v : Variant) (es : List Expr) (input : Text) : Prop :=
  ∃ source inner n members,
    (read sep input).exprs = [.span source (v.shift n) (some (.group inner members false true))] ∧
      List.Forall₂ (fun e x => ∃ n, x = e.shift n) es members

/-- The class list reads as the variant in front of each of the expressions. -/
def ReadsSpread (sep : Separator) (v : Variant) (es : List Expr) (input : Text) : Prop :=
  List.Forall₂ (fun e x => ∃ source n m, x = .span source (v.shift n) (some (e.shift m))) es
    (read sep input).exprs

end ClassList

namespace Environment

variable {env : Environment} {v : Variant} {w : Wrapper}

section

variable {mode : Mode} {apply : Text → Report StyleTree}
  (hquiet : ∀ t, (apply t).diagnostics = []) {important : Bool}

include hquiet

/-- Expressions that were moved, each by itself, are evaluated as they were. -/
theorem answersAlike_moved {es members : List Expr}
    (h : List.Forall₂ (fun e x => ∃ n, x = e.shift n) es members) (out : Evaluated) :
    (env.exprs mode apply important members out).AnswersAlike
      (env.exprs mode apply important es out) := by
  induction h generalizing out with
  | nil => exact ⟨rfl, Iff.rfl, rfl⟩
  | @cons e x rest rest' hfirst _ ih =>
    obtain ⟨n, rfl⟩ := hfirst
    obtain ⟨hvalue, hnotes, htorn⟩ := ih (env.expr mode apply important e out).value
    rw [exprs, exprs, expr_shift hquiet]
    refine ⟨?_, ?_, ?_⟩
    · rw [Report.value_bind, Report.value_bind, Report.value_shift, hvalue]
    · rw [Report.diagnostics_bind, Report.diagnostics_bind, Report.value_shift,
        Report.diagnostics_shift, List.append_eq_nil_iff, List.append_eq_nil_iff,
        List.map_eq_nil_iff, hnotes]
    · rw [Report.torn_bind, Report.torn_bind, Report.value_shift, Report.torn_shift, htorn]

/-- With a variant in front of a group, the styles of the members are wrapped together, and the
notes on the variant are taken once. -/
theorem exprs_grouped (hw : (env.wrapper? v).value = some w) {es members : List Expr}
    (h : List.Forall₂ (fun e x => ∃ n, x = e.shift n) es members) (source inner : Slice) (n : Nat) :
    let grouped : Expr := .span source (v.shift n) (some (.group inner members false true))
    (env.exprs mode apply false [grouped] {}).value =
        (env.exprs mode apply false es {}).value.wrapped w ∧
      ((env.exprs mode apply false [grouped] {}).diagnostics = [] ↔
        (env.wrapper? v).diagnostics = [] ∧
          ∀ e ∈ es, (env.expr mode apply false e {}).diagnostics = []) ∧
      (env.exprs mode apply false [grouped] {}).torn = ((env.wrapper? v).torn ||
        es.any fun e => (env.expr mode apply false e {}).torn) := by
  intro grouped
  obtain ⟨hvalue, hnotes, htorn⟩ : (env.exprs mode apply false members {}).AnswersAlike
      (env.exprs mode apply false es {}) := answersAlike_moved hquiet h {}
  have hgroup : env.expr mode apply false (.group inner members false true) {} =
      env.exprs mode apply false members {} := rfl
  have hdistinct : (env.exprs mode apply false es {}).value.Distinct :=
    distinct_exprs es false {} Evaluated.distinct_empty
  rw [exprs_singleton]
  refine ⟨?_, ?_, ?_⟩
  · rw [value_expr_span, wrapper?_shift, Report.value_shift, hw, hgroup, hvalue]
    exact (hdistinct.wrapped w).empty_merge
  · rw [diagnostics_expr_span, wrapper?_shift, Report.diagnostics_shift, List.append_eq_nil_iff,
      List.map_eq_nil_iff, hgroup, hnotes, diagnostics_exprs, List.flatMap_eq_nil_iff]
  · rw [torn_expr_span, wrapper?_shift, Report.torn_shift, hgroup, htorn, torn_exprs_eq_any]

/-- With a variant in front of each of them, the styles of expressions are wrapped one by one, and
the notes on the variant are taken with each of them. -/
theorem exprs_spread (hw : (env.wrapper? v).value = some w) {es spread : List Expr}
    (h : List.Forall₂
      (fun e x => ∃ source n m, x = .span source (v.shift n) (some (e.shift m))) es spread)
    (out : Evaluated) :
    (env.exprs mode apply important spread out).value =
        (es.map fun e => (env.expr mode apply important e {}).value.wrapped w).foldl
          Evaluated.merge out ∧
      ((env.exprs mode apply important spread out).diagnostics = [] ↔ ∀ e ∈ es,
        (env.wrapper? v).diagnostics = [] ∧ (env.expr mode apply important e {}).diagnostics = []) ∧
      (env.exprs mode apply important spread out).torn = es.any fun e =>
        (env.wrapper? v).torn || (env.expr mode apply important e {}).torn := by
  induction h generalizing out with
  | nil => exact ⟨rfl, by simp [exprs], rfl⟩
  | @cons e x rest rest' hfirst _ ih =>
    obtain ⟨source, n, m, rfl⟩ := hfirst
    have hvalue : (env.expr mode apply important (.span source (v.shift n) (some (e.shift m)))
        out).value = out.merge ((env.expr mode apply important e {}).value.wrapped w) := by
      rw [value_expr_span, wrapper?_shift, Report.value_shift, hw, expr_shift hquiet,
        Report.value_shift]
    obtain ⟨hrest, hnotes, htorn⟩ :=
      ih (out.merge ((env.expr mode apply important e {}).value.wrapped w))
    rw [exprs]
    refine ⟨?_, ?_, ?_⟩
    · rw [Report.value_bind, hvalue, hrest, List.map_cons, List.foldl_cons]
    · rw [Report.diagnostics_bind, hvalue, List.append_eq_nil_iff, hnotes, diagnostics_expr_span,
        wrapper?_shift, expr_shift hquiet, Report.diagnostics_shift, Report.diagnostics_shift,
        List.append_eq_nil_iff, List.map_eq_nil_iff, List.map_eq_nil_iff, List.forall_mem_cons]
    · rw [Report.torn_bind, hvalue, htorn, torn_expr_span, wrapper?_shift, expr_shift hquiet,
        Report.torn_shift, Report.torn_shift, List.any_cons]

end

/-- What is merged into the styles by the expression agrees on where something is nested. -/
def Coherent (env : Environment) (e : Expr) : Prop :=
  (env.exprContributions .direct (env.applyWithin applyLevels) false e).Pairwise Evaluated.Agree

/-- A variant in front of a group and in front of each of its members. -/
theorem answersAlike_spread (hregistry : env.registry.WellKeyed)
    (hw : (env.wrapper? v).value = some w) (hpostless : w.Postless) (hapart : w.Apart)
    {es : List Expr} (hes : es ≠ []) (hcoherent : ∀ e ∈ es, env.Coherent e)
    {grouped spread : Text} (hgrouped : ReadsGrouped env.separator v es grouped)
    (hspread : ReadsSpread env.separator v es spread) :
    (env.evaluate grouped).AnswersAlike (env.evaluate spread) := by
  have hquiet : ∀ t, (env.applyWithin applyLevels t).diagnostics = [] :=
    diagnostics_applyWithin applyLevels
  have hkeyed : ∀ t, StyleTree.WellKeyed (env.applyWithin applyLevels t).value :=
    fun t => wellKeyed_applyWithin hregistry t applyLevels
  obtain ⟨source, inner, n, members, hread, hmoved⟩ := hgrouped
  obtain ⟨hvalue, hnotes, htorn⟩ :=
    @exprs_grouped env v w .direct _ hquiet hw es members hmoved source inner n
  obtain ⟨hvalue', hnotes', htorn'⟩ :=
    @exprs_spread env v w .direct _ hquiet false hw es _ hspread {}
  rw [← hread] at hvalue hnotes htorn
  refine ⟨hvalue.trans (Eq.trans ?_ hvalue'.symm), hnotes.trans (Iff.trans ?_ hnotes'.symm),
    htorn.trans (Eq.trans ?_ htorn'.symm)⟩
  · have hdistinct : ∀ x ∈ es.map fun e =>
        (env.expr .direct (env.applyWithin applyLevels) false e {}).value, x.Distinct := by
      intro x hx
      obtain ⟨e, -, rfl⟩ := List.mem_map.mp hx
      exact distinct_expr e false {} Evaluated.distinct_empty
    rw [value_exprs_eq_foldl hregistry hkeyed hcoherent,
      Evaluated.foldl_merge_wrapped hapart hpostless hdistinct Evaluated.distinct_empty,
      List.map_map]
    rfl
  · obtain ⟨e, he⟩ := List.exists_mem_of_ne_nil es hes
    exact ⟨fun h e he => ⟨h.1, h.2 e he⟩, fun h => ⟨(h e he).1, fun e he => (h e he).2⟩⟩
  · cases (env.wrapper? v).torn with
    | false => simp only [Bool.false_or]
    | true =>
      rw [Bool.true_or, eq_comm, List.any_eq_true]
      obtain ⟨e, he⟩ := List.exists_mem_of_ne_nil es hes
      exact ⟨e, he, rfl⟩

end Environment

namespace Context

/-- A class list with a variant in front of a group, and one with the variant in front of each
member of the group, of any kind and nesting and whether they resolve or not.  If the variant
resolves to layers without changes, in each of which the templates begin with different levels, and
what is merged inside each single member agrees on where something is nested, the styles are the
same, in both trees and with the keys in the same order, and the two class lists have the same
answers. -/
theorem evaluate_spread (ctx : Context) (hregistry : ctx.env.registry.WellKeyed) {v : Variant}
    {w : Wrapper} (hw : (ctx.env.wrapper? v).value = some w) (hpostless : w.Postless)
    (hapart : w.Apart) {es : List Expr} (hes : es ≠ []) (hcoherent : ∀ e ∈ es, ctx.env.Coherent e)
    {grouped spread : Text} (hgrouped : ReadsGrouped ctx.env.separator v es grouped)
    (hspread : ReadsSpread ctx.env.separator v es spread) :
    (ctx.env.evaluate grouped).value.tree = (ctx.env.evaluate spread).value.tree ∧
      (ctx.env.evaluate grouped).value.important = (ctx.env.evaluate spread).value.important ∧
      (ctx.evaluate grouped).toOption = (ctx.evaluate spread).toOption ∧
      (ctx.css grouped).toOption = (ctx.css spread).toOption := by
  obtain ⟨hvalue, hquiet, htorn⟩ := Environment.answersAlike_spread hregistry hw hpostless hapart
    hes hcoherent hgrouped hspread
  have hevaluate : (ctx.evaluate grouped).toOption = (ctx.evaluate spread).toOption :=
    answer_toOption_congr hvalue hquiet htorn
  exact ⟨congrArg Evaluated.tree hvalue, congrArg Evaluated.important hvalue, hevaluate,
    by rw [css_toOption, css_toOption, hevaluate]⟩

/-- A variant with two templates, in front of a group with another group and a name that nothing is
registered for. -/
theorem evaluate_spread_twofold :
    let one (name : Char) (tree : StyleTree) : Text × List UtilitySpec :=
      ([name], [⟨[], .fixed tree .standard⟩])
    let utilities : SpecTable UtilitySpec :=
      [one 'p' [(['a'], .scalar ['1'])], one 'q' [(['b'], .scalar ['2']), (['a'], .scalar ['3'])]]
    let variants : SpecTable VariantSpec :=
      [(['v'], [⟨[], .fixed [['x', '\x7b', 'y', '\x7d'], ['z']], none⟩])]
    let settings : Settings := ⟨[':'], [], .selector ['s'], .media, []⟩
    let ctx : Context := ⟨⟨⟨.null⟩, settings, .colon, ⟨utilities, variants, []⟩⟩, [], false⟩
    let grouped : Text := ['v', ':', '(', 'p', ' ', '(', 'q', ' ', 'p', '!', ')', ' ', 'r', ')']
    let spread : Text :=
      ['v', ':', 'p', ' ', 'v', ':', '(', 'q', ' ', 'p', '!', ')', ' ', 'v', ':', 'r']
    let twice (tree : StyleTree) : StyleTree :=
      [(['x'], .tree [(['y'], .tree tree)]), (['z'], .tree tree)]
    ctx.evaluate spread = .ok ⟨twice [(['a'], .scalar ['3']), (['b'], .scalar ['2'])],
        twice [(['a'], .scalar ['1'])]⟩ ∧
      (ctx.evaluate grouped).toOption = (ctx.evaluate spread).toOption ∧
      (ctx.css grouped).toOption = (ctx.css spread).toOption := by
  intro one utilities variants settings ctx grouped spread twice
  let name (start : Nat) (c : Char) : Head := .plain ⟨start, [c]⟩ none
  let v : Variant := .named ⟨0, ['v']⟩ (name 0 'v')
  let inner (n : Nat) : Expr := .group ⟨n, ['(', 'q', ' ', 'p', '!', ')']⟩
    [.utility ⟨n + 1, ['q']⟩ (name (n + 1) 'q') false,
      .utility ⟨n + 3, ['p', '!']⟩ (name (n + 3) 'p') true] false true
  let es : List Expr :=
    [.utility ⟨0, ['p']⟩ (name 0 'p') false, inner 0, .utility ⟨0, ['r']⟩ (name 0 'r') false]
  have hgrouped : (read .colon grouped).exprs = [.span ⟨0, grouped⟩ (v.shift 0)
      (some (.group ⟨2, grouped.drop 2⟩ [.utility ⟨3, ['p']⟩ (name 3 'p') false, inner 5,
        .utility ⟨12, ['r']⟩ (name 12 'r') false] false true))] := by
    -- without local names it is a closed equation, which is quick to evaluate
    dsimp only [grouped, v, inner, name]
    rfl
  have hspread : (read .colon spread).exprs =
      [.span ⟨0, ['v', ':', 'p']⟩ (v.shift 0) (some (.utility ⟨2, ['p']⟩ (name 2 'p') false)),
        .span ⟨4, ['v', ':', '(', 'q', ' ', 'p', '!', ')']⟩ (v.shift 4) (some (inner 6)),
        .span ⟨13, ['v', ':', 'r']⟩ (v.shift 13)
          (some (.utility ⟨15, ['r']⟩ (name 15 'r') false))] := by
    dsimp only [spread, v, inner, name]
    rfl
  have hspread' : ReadsSpread .colon v es spread := by
    rw [ReadsSpread, hspread]
    exact .cons ⟨_, 0, 2, rfl⟩ (.cons ⟨_, 4, 6, rfl⟩ (.cons ⟨_, 13, 15, rfl⟩ .nil))
  have hregistry : ctx.env.registry.WellKeyed := by
    refine Registry.wellKeyed_of_mem ?_ ?_
    · refine List.forall_mem_cons.mpr ⟨?_, List.forall_mem_singleton.mpr ?_⟩
      · exact List.forall_mem_singleton.mpr (StyleTree.WellKeyed.scalar _ _)
      · exact List.forall_mem_singleton.mpr ⟨by decide, trivial, StyleTree.WellKeyed.scalar _ _⟩
    · refine List.forall_mem_singleton.mpr (List.forall_mem_singleton.mpr ?_)
      exact fun post hpost => by cases hpost
  let w : Wrapper := .single (.ofTemplates [['x', '\x7b', 'y', '\x7d'], ['z']] none)
  have hwrapper : (ctx.env.wrapper? v).value = some w := rfl
  have hpostless : w.Postless := List.forall_mem_singleton.mpr rfl
  have hapart : w.Apart := List.forall_mem_singleton.mpr (by decide)
  have hcoherent : ∀ e ∈ es, ctx.env.Coherent e := by
    have hinner : ctx.env.exprContributions .direct (ctx.env.applyWithin Environment.applyLevels)
        false (inner 0) = [⟨[(['b'], .scalar ['2']), (['a'], .scalar ['3'])], []⟩,
          ⟨[], [(['a'], .scalar ['1'])]⟩] := by decide
    refine List.forall_mem_cons.mpr ⟨List.pairwise_singleton _ _, List.forall_mem_cons.mpr
      ⟨?_, List.forall_mem_singleton.mpr (List.pairwise_singleton _ _)⟩⟩
    show List.Pairwise _ _
    rw [hinner, List.pairwise_pair]
    exact ⟨StyleTree.agree_nil _, (StyleTree.agree_nil _).symm⟩
  obtain ⟨-, -, hevaluate, hcss⟩ := evaluate_spread ctx hregistry hwrapper hpostless hapart
    (List.cons_ne_nil _ _) hcoherent
    ⟨_, _, 0, _, hgrouped, .cons ⟨3, rfl⟩ (.cons ⟨5, rfl⟩ (.cons ⟨12, rfl⟩ .nil))⟩
    hspread'
  exact ⟨by decide, hevaluate, hcss⟩

/-- The styles of `q` and of the group `(p r)` agree, but inside the group `p` has a declaration
where `r` nests.  In a group with `q` the declaration replaces what `q` nested, before `r` nests
again.  Behind a variant of its own `(p r)` is evaluated by itself, and nothing is left of the
declaration that could replace anything. -/
theorem evaluate_spread_inside :
    let one (name : Char) (value : StyleValue) : Text × List UtilitySpec :=
      ([name], [⟨[], .fixed [(['x'], value)] .standard⟩])
    let utilities : SpecTable UtilitySpec := [one 'q' (.tree [(['a'], .scalar ['1'])]),
      one 'p' (.scalar ['1']), one 'r' (.tree [(['b'], .scalar ['2'])])]
    let variants : SpecTable VariantSpec := [(['v'], [⟨[], .fixed [['y']], none⟩])]
    let settings : Settings := ⟨[':'], [], .all false, .media, []⟩
    let ctx : Context := ⟨⟨⟨.null⟩, settings, .colon, ⟨utilities, variants, []⟩⟩, [], true⟩
    let v : Variant := .named ⟨0, ['v']⟩ (.plain ⟨0, ['v']⟩ none)
    let w : Wrapper := .single (.ofTemplates [['y']] none)
    let name (start : Nat) (c : Char) : Expr :=
      .utility ⟨start, [c]⟩ (.plain ⟨start, [c]⟩ none) false
    let es : List Expr :=
      [name 0 'q', .group ⟨0, ['(', 'p', ' ', 'r', ')']⟩ [name 1 'p', name 3 'r'] false true]
    let styles (e : Expr) : Evaluated :=
      (ctx.env.expr .direct (ctx.env.applyWithin Environment.applyLevels) false e {}).value
    let grouped : Text := ['v', ':', '(', 'q', ' ', '(', 'p', ' ', 'r', ')', ')']
    let spread : Text := ['v', ':', 'q', ' ', 'v', ':', '(', 'p', ' ', 'r', ')']
    let nested (tree : StyleTree) : StyleTree := [(['y'], .tree [(['x'], .tree tree)])]
    ctx.env.registry.WellKeyed ∧
      ((ctx.env.wrapper? v).value = some w ∧ w.Postless ∧ w.Apart) ∧
      (ReadsGrouped .colon v es grouped ∧ ReadsSpread .colon v es spread) ∧
      (es.map styles).Pairwise Evaluated.Agree ∧
      ctx.evaluate grouped = .ok ⟨nested [(['b'], .scalar ['2'])], []⟩ ∧
      ctx.evaluate spread = .ok ⟨nested [(['a'], .scalar ['1']), (['b'], .scalar ['2'])], []⟩ := by
  intro one utilities variants settings ctx v w name es styles grouped spread nested
  have hregistry : ctx.env.registry.WellKeyed := by
    refine Registry.wellKeyed_of_mem ?_ ?_
    · refine List.forall_mem_cons.mpr ⟨?_, List.forall_mem_cons.mpr ⟨?_, ?_⟩⟩
      · exact List.forall_mem_singleton.mpr ((StyleTree.WellKeyed.scalar _ _).nest _)
      · exact List.forall_mem_singleton.mpr (StyleTree.WellKeyed.scalar _ _)
      · exact List.forall_mem_singleton.mpr
          (List.forall_mem_singleton.mpr ((StyleTree.WellKeyed.scalar _ _).nest _))
    · refine List.forall_mem_singleton.mpr (List.forall_mem_singleton.mpr ?_)
      exact fun post hpost => by cases hpost
  have hgrouped : (read .colon grouped).exprs = [.span ⟨0, grouped⟩ (v.shift 0)
      (some (.group ⟨2, grouped.drop 2⟩ [name 3 'q',
        .group ⟨5, ['(', 'p', ' ', 'r', ')']⟩ [name 6 'p', name 8 'r'] false true]
          false true))] := by
    dsimp only [grouped, v, name]
    rfl
  have hspread : (read .colon spread).exprs =
      [.span ⟨0, ['v', ':', 'q']⟩ (v.shift 0) (some (name 2 'q')),
        .span ⟨4, ['v', ':', '(', 'p', ' ', 'r', ')']⟩ (v.shift 4) (some (.group
          ⟨6, ['(', 'p', ' ', 'r', ')']⟩ [name 7 'p', name 9 'r'] false true))] := by
    dsimp only [spread, v, name]
    rfl
  have hspread' : ReadsSpread .colon v es spread := by
    rw [ReadsSpread, hspread]
    exact .cons ⟨_, 0, 2, rfl⟩ (.cons ⟨_, 4, 6, rfl⟩ .nil)
  have hstyles : es.map styles = [⟨[(['x'], .tree [(['a'], .scalar ['1'])])], []⟩,
      ⟨[(['x'], .tree [(['b'], .scalar ['2'])])], []⟩] := by decide
  have hagree : (es.map styles).Pairwise Evaluated.Agree := by
    rw [hstyles, List.pairwise_pair]
    exact ⟨.nest _ (StyleTree.agree_of_declarations (by decide) (by decide)),
      StyleTree.agree_nil _⟩
  exact ⟨hregistry,
    ⟨rfl, List.forall_mem_singleton.mpr rfl, List.forall_mem_singleton.mpr (by decide)⟩,
    ⟨⟨_, _, 0, _, hgrouped, .cons ⟨3, rfl⟩ (.cons ⟨5, rfl⟩ .nil)⟩, hspread'⟩, hagree,
    by decide, by decide⟩

end Context
end UtilityCss
