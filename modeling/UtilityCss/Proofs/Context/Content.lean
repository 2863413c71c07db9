import UtilityCss.Proofs.Builtin.Content
import UtilityCss.Proofs.Context.Distribution
import UtilityCss.Proofs.Context.Registrations
import UtilityCss.Proofs.Evaluation.Origin

/-!
# The content of what stands before or after an element

In the context of the built-in preset, a sequence of utilities each with the variant `before` or
`after` in front has the `content` that the last of them declares, and the default if that one
declares none.  In front of the utilities as a group the variant gives them the `content` that the
last one *with such a declaration* has.  So the two differ exactly if the last utility declares no
`content` and an earlier one declares another than the default.
-/

namespace UtilityCss

open ClassList
open StyleTree (nest FlatAt)
open Keyed (Distinct)

/-! ## The wrapper -/

namespace Builtin

/-- What an element gets for content when nothing else is declared. -/
def contentDefault : StyleValue := .scalar "var(--tw-content)"

/-- The wrapper of a variant for what stands aside. -/
def asideWrapper (name : Text) : Wrapper := .single (.ofTemplates [aside name] (some withContent))

variable {name : Text} {tree : StyleTree}

theorem distinct_withContent (tree : StyleTree) : Distinct (withContent tree) :=
  StyleTree.distinct_merge tree (List.nodup_singleton _)

/-- An own declaration counts, and the default if there is none. -/
theorem lookup_withContent (htree : Distinct tree) (hflat : FlatAt "content" tree) :
    (withContent tree).lookup ("content" : Text) =
      some ((tree.lookup ("content" : Text)).getD contentDefault) := by
  rw [withContent, StyleTree.lookup_merge htree hflat]
  cases tree.lookup ("content" : Text) <;> rfl

theorem flatAt_withContent (htree : Distinct tree) (hflat : FlatAt "content" tree) :
    FlatAt "content" (withContent tree) := by
  intro v hv
  rw [Option.mem_def, lookup_withContent htree hflat] at hv
  obtain rfl := Option.some.inj hv
  cases hown : tree.lookup ("content" : Text) with
  | none => rfl
  | some own => exact hflat own hown

theorem apply_asideWrapper (hname : name ∈ asides) (htree : tree ≠ []) :
    (asideWrapper name).apply tree = nest (aside name) (withContent tree) := by
  have hlevels : ∀ name ∈ asides, Wrapping.levels (aside name) = [aside name] := by decide
  have htemplates : (Wrapping.ofTemplates [aside name] (some withContent)).templates =
      [[aside name]] := congrArg (fun levels => [levels]) (hlevels name hname)
  rw [asideWrapper, Wrapper.apply_of_ne_nil _ htree]
  show Wrapping.wrap _ (withContent tree) = _
  rw [Wrapping.wrap_eq_foldl, htemplates]
  exact StyleTree.nil_merge (List.nodup_singleton _)

/-- The variant resolves without a note. -/
theorem wrapper?_of_isAside {env : Environment} (h : IsAside env.registry name) :
    env.wrapper? (.named ⟨0, name⟩ (.plain ⟨0, name⟩ none)) =
      pure (some (asideWrapper name)) := by
  obtain ⟨plugin, hspecs⟩ := h.specs
  have hvariant : env.variant name none =
      .ok ⟨name, some ⟨plugin, .fixed [aside name], some withContent⟩, asideWrapper name⟩ := by
    rw [Environment.variant, h.readings]
    show env.decideVariant? [⟨name, none, none, false, none⟩] = _
    rw [Environment.decideVariant?, hspecs]
    rfl
  have hsingle : env.singleVariant (.named ⟨0, name⟩ (.plain ⟨0, name⟩ none)) =
    env.variant name none := rfl
  rw [Environment.wrapper?, Environment.resolved?, hsingle, hvariant]
  rfl

end Builtin

/-! ## Utilities -/

namespace Environment

variable {env : Environment} {key : Text}

/-- The expression is a utility that resolves, or the declaration of a property. -/
def IsUtility (env : Environment) : Expr → Prop
  | .utility _ head _ => ∃ found, env.utilityOf head = .ok found
  | .property _ value _ _ => ∃ declared, Bracketed.declaration? value.text = some declared
  | .group .. => False
  | .span .. => False

/-- The value that the expression by itself gives a property. -/
def declared? (env : Environment) (property : Text) (e : Expr) : Option StyleValue :=
  (env.expr .direct (env.applyWithin applyLevels) false e {}).value.tree.lookup property

/-- What a utility adds to styles agrees with itself. -/
theorem pairwise_contributions {mode : Mode} {apply : Text → Report StyleTree} {important : Bool} :
    ∀ {e : Expr}, env.IsUtility e →
      (env.exprContributions mode apply important e).Pairwise Evaluated.Agree
  | .utility .., _ => List.pairwise_singleton _ _
  | .property .., _ => List.pairwise_singleton _ _
  | .group .., h => h.elim
  | .span .., h => h.elim

/-- A utility that is found in a plain registry has a style, as it is, with nothing under the
key. -/
theorem plain_of_utilityOf (hplain : env.registry.PlainAt key) {head : Head}
    {found : ResolvedUtility} (h : env.utilityOf head = .ok found)
    (apply : Text → Report StyleTree) :
    env.styleOf apply found = pure found.tree ∧ found.tree ≠ [] ∧ FlatAt key found.tree := by
  obtain ⟨name, hmakes⟩ := makes_of_utilityOf h
  rw [styleOf]
  generalize found.spec = spec, found.tree = tree at hmakes
  cases hmakes with
  | @static led c hstatic =>
    obtain ⟨hmem, flags, hrule⟩ := rule_of_staticCandidate?
      (Nat.le_trans (List.Sublist.countP_le List.filter_sublist) (hplain.sole name)) hstatic
    have hspec := hplain.utility name _ (List.mem_of_mem_filter hmem)
    rw [UtilitySpec.PlainAt, hrule] at hspec
    obtain ⟨htree, hneeded, hflat⟩ := hspec
    rw [UtilitySpec.isLookup, hrule]
    refine ⟨?_, htree, hflat⟩
    show Directive.expand env apply c.tree = _
    rw [Directive.expand, hneeded]
    rfl
  | @rendered spec u tree hmem hrule hrenders =>
    obtain ⟨text, info, hfinish⟩ := hrenders
    have hspec := hplain.utility name _ hmem
    rw [UtilitySpec.PlainAt, hrule] at hspec
    rw [UtilitySpec.isLookup, hrule]
    refine ⟨rfl, ?_⟩
    unfold LookupUtility.finish? at hfinish
    rw [hspec.post] at hfinish
    dsimp only at hfinish
    split at hfinish
    · cases hfinish
    · rename_i hempty
      obtain rfl := Option.some.inj hfinish
      exact ⟨fun hnil => hempty (List.isEmpty_iff.mpr hnil), hspec.render text info⟩

end Environment

/-! ## Sequences of utilities -/

/-- A style with something in it, with nothing under the key, and nothing kept apart. -/
structure Evaluated.PlainAt (key : Text) (e : Evaluated) : Prop where
  tree : e.tree ≠ []
  distinct : Keyed.Distinct e.tree
  flat : FlatAt key e.tree
  important : e.important = []

namespace Environment

variable {env : Environment} {key : Text}

/-- If nothing is kept apart for its importance, a utility adds its style, marked or not. -/
theorem emit_plainAt (hall : env.settings.important = .all false) (mode : Mode) (flags : Flags)
    (marked : Bool) {tree : StyleTree} (htree : tree ≠ []) (hkeyed : StyleTree.WellKeyed tree)
    (hflat : FlatAt key tree) : (env.emit mode flags marked tree {}).PlainAt key := by
  have hemit : env.emit mode flags marked tree {} =
      ⟨StyleTree.merge [] (if marked then StyleTree.important tree else tree), []⟩ := by
    unfold emit
    rw [hall]
    cases marked <;> rfl
  rw [hemit]
  cases marked with
  | false =>
    rw [if_neg Bool.false_ne_true, StyleTree.nil_merge hkeyed.distinct]
    exact ⟨htree, hkeyed.distinct, hflat, rfl⟩
  | true =>
    have hmarked := hkeyed.important.distinct
    rw [if_pos rfl, StyleTree.nil_merge hmarked]
    exact ⟨fun h => htree ((StyleTree.mapScalars_eq_nil_iff _).mp h), hmarked, hflat.important, rfl⟩

section

variable (hall : env.settings.important = .all false) (hregistry : env.registry.WellKeyed)
  (hplain : env.registry.PlainAt key)

include hall hregistry hplain

/-- A utility resolves to a plain style. -/
theorem plainAt_expr (mode : Mode) (apply : Text → Report StyleTree) {e : Expr}
    (he : env.IsUtility e) : (env.expr mode apply false e {}).torn = false ∧
      (env.expr mode apply false e {}).value.PlainAt key := by
  cases e with
  | group source members marked closed => exact he.elim
  | span source variant child => exact he.elim
  | utility source head marked =>
    obtain ⟨found, hfound⟩ := he
    obtain ⟨hstyle, htree, hflat⟩ := plain_of_utilityOf hplain hfound apply
    rw [expr, hfound]
    dsimp only
    rw [hstyle]
    refine ⟨?_, emit_plainAt hall mode _ _ htree
      (wellKeyed_of_utilityOf hregistry hfound) hflat⟩
    rw [Report.torn_bind, Report.torn_noteIf]
    rfl
  | property source value marked closed =>
    obtain ⟨⟨property, raw⟩, hdeclared⟩ := he
    rw [expr, hdeclared]
    refine ⟨?_, emit_plainAt hall mode _ _ (List.cons_ne_nil _ _) (.scalar _ _)
      (StyleTree.flatAt_of_declarations (List.forall_mem_singleton.mpr rfl) key)⟩
    rw [Report.torn_bind, Report.torn_noteIf]
    rfl

end

end Environment

/-! ## Sequences of styles -/

namespace Evaluated

/-- If nothing is kept apart, only the trees are merged. -/
theorem foldl_merge_of_important_eq_nil {es : List Evaluated} (hes : ∀ e ∈ es, e.important = [])
    (tree : StyleTree) :
    es.foldl merge ⟨tree, []⟩ = ⟨(es.map Evaluated.tree).foldl StyleTree.merge tree, []⟩ := by
  induction es generalizing tree with
  | nil => rfl
  | cons e rest ih =>
    obtain ⟨he, hrest⟩ := List.forall_mem_cons.mp hes
    have hfirst : merge ⟨tree, []⟩ e = ⟨StyleTree.merge tree e.tree, []⟩ := by
      rw [merge, he]
      rfl
    rw [List.foldl_cons, hfirst, ih hrest, List.map_cons, List.foldl_cons]

open Builtin (aside asides asideWrapper withContent contentDefault)

variable {name : Text} {e : Evaluated} {es : List Evaluated}

theorem PlainAt.wrapped_aside (he : e.PlainAt "content") (hname : name ∈ asides) :
    e.wrapped (asideWrapper name) = ⟨nest (aside name) (withContent e.tree), []⟩ := by
  rw [wrapped, he.important, Builtin.apply_asideWrapper hname he.tree]
  rfl

/-- Styles that are merged are as plain as they were. -/
theorem plainAt_foldl_merge (hnil : es ≠ []) (hes : ∀ e ∈ es, e.PlainAt "content") :
    (es.foldl merge {}).PlainAt "content" := by
  have htrees : ∀ t ∈ es.map Evaluated.tree, Keyed.Distinct t ∧ FlatAt "content" t := by
    intro t ht
    obtain ⟨e, he, rfl⟩ := List.mem_map.mp ht
    exact ⟨(hes e he).distinct, (hes e he).flat⟩
  rw [foldl_merge_of_important_eq_nil fun e he => (hes e he).important]
  refine ⟨?_, Keyed.distinct_foldl (fun _ t h => StyleTree.distinct_merge t h) _
    Keyed.distinct_nil,
    FlatAt.foldl_merge (fun t ht => (htrees t ht).1) fun t ht => (htrees t ht).2, rfl⟩
  cases es with
  | nil => exact absurd rfl hnil
  | cons e rest =>
    obtain ⟨he, -⟩ := List.forall_mem_cons.mp hes
    refine StyleTree.foldl_merge_ne_nil (fun h => he.tree ?_) (rest.map Evaluated.tree)
    exact ((StyleTree.merge_eq_nil_iff e.tree []).mp h).2

/-- Behind one variant for what stands aside, the last declaration of content counts. -/
theorem wrapped_foldl_merge_aside (hname : name ∈ asides) (hnil : es ≠ [])
    (hes : ∀ e ∈ es, e.PlainAt "content") : ∃ below,
    (es.foldl merge {}).wrapped (asideWrapper name) = ⟨nest (aside name) below, []⟩ ∧
      below.lookup ("content" : Text) = some ((es.reverse.findSome? fun e =>
        e.tree.lookup ("content" : Text)).getD contentDefault) := by
  have hmerged := plainAt_foldl_merge hnil hes
  refine ⟨_, hmerged.wrapped_aside hname, ?_⟩
  rw [Builtin.lookup_withContent hmerged.distinct hmerged.flat,
    foldl_merge_of_important_eq_nil fun e he => (hes e he).important,
    StyleTree.lookup_foldl_merge]
  · rw [List.lookup_nil, Option.or_none, ← List.map_reverse, List.findSome?_map]
    rfl
  · exact List.forall_mem_map.mpr fun e he => (hes e he).distinct
  · exact List.forall_mem_map.mpr fun e he => (hes e he).flat

/-- With a variant for what stands aside in front of each, the last style decides, even if it
declares no content. -/
theorem foldl_merge_wrapped_aside (hname : name ∈ asides) {last : Evaluated}
    (hes : ∀ e ∈ es, e.PlainAt "content") (hlast : last.PlainAt "content") : ∃ below,
    ((es ++ [last]).map fun e => e.wrapped (asideWrapper name)).foldl merge {} =
        ⟨nest (aside name) below, []⟩ ∧
      below.lookup ("content" : Text) =
        some ((last.tree.lookup ("content" : Text)).getD contentDefault) := by
  have hall : ∀ e ∈ es ++ [last], e.PlainAt "content" := by
    intro e he
    rcases List.mem_append.mp he with he | he
    · exact hes e he
    · exact List.mem_singleton.mp he ▸ hlast
  let trees : List StyleTree := (es ++ [last]).map fun e => withContent e.tree
  have hwrapped : (es ++ [last]).map (fun e => e.wrapped (asideWrapper name)) =
      (es ++ [last]).map fun e => ⟨nest (aside name) (withContent e.tree), []⟩ :=
    List.map_congr_left fun e he => (hall e he).wrapped_aside hname
  have hdistinct : ∀ t ∈ trees, Keyed.Distinct t :=
    List.forall_mem_map.mpr fun e _ => Builtin.distinct_withContent e.tree
  have hnest : (trees.map (nest (aside name))).foldl StyleTree.merge [] =
      nest (aside name) (trees.foldl StyleTree.merge []) :=
    StyleTree.foldl_merge_nest _ (by simp [trees]) hdistinct
  refine ⟨trees.foldl StyleTree.merge [], ?_, ?_⟩
  · rw [hwrapped, foldl_merge_of_important_eq_nil, List.map_map, ← hnest, List.map_map]
    · rfl
    · exact List.forall_mem_map.mpr fun _ _ => rfl
  · rw [StyleTree.lookup_foldl_merge hdistinct, ← List.map_reverse, List.reverse_append,
      List.reverse_singleton, List.singleton_append, List.map_cons, List.findSome?_cons,
      Builtin.lookup_withContent hlast.distinct hlast.flat]
    · rfl
    · exact List.forall_mem_map.mpr fun e he =>
        Builtin.flatAt_withContent (hall e he).distinct (hall e he).flat

end Evaluated

namespace Context

open Builtin (aside asides asideWrapper contentDefault)

/-- The variant that is written with the name. -/
def namedVariant (name : Text) : Variant := .named ⟨0, name⟩ (.plain ⟨0, name⟩ none)

namespace GivesContent

variable {ctx : Context} (h : ctx.GivesContent) {name : Text} (hname : name ∈ asides)

include h

theorem plainAt {e : Expr} (he : ctx.env.IsUtility e) :
    let r := ctx.env.expr .direct (ctx.env.applyWithin Environment.applyLevels) false e {}
    r.torn = false ∧ r.value.PlainAt "content" :=
  Environment.plainAt_expr h.important h.wellKeyed h.plain _ _ he

/-- What is not torn has its value for an answer. -/
theorem evaluate_eq {input : Text} {styles : Evaluated}
    (htorn : (ctx.env.evaluate input).torn = false)
    (hvalue : (ctx.env.evaluate input).value = styles) : ctx.evaluate input = .ok styles :=
  (answer_eq_ok_iff ctx).mpr
    ⟨htorn, fun hstrict => absurd (hstrict.symm.trans h.lenient) (by decide), hvalue⟩

include hname

theorem wrapper? : (ctx.env.wrapper? (namedVariant name)).value = some (asideWrapper name) ∧
    (ctx.env.wrapper? (namedVariant name)).torn = false := by
  have hwrapper := Builtin.wrapper?_of_isAside (h.isAside name hname)
  exact ⟨congrArg Report.value hwrapper, congrArg Report.torn hwrapper⟩

/-- With the variant in front of each, the last utility decides. -/
theorem content_spread {us : List Expr} {u : Expr} (hus : ∀ e ∈ us ++ [u], ctx.env.IsUtility e)
    {spread : Text}
    (hspread : ReadsSpread ctx.env.separator (namedVariant name) (us ++ [u]) spread) :
    ∃ below, ctx.evaluate spread = .ok ⟨nest (aside name) below, []⟩ ∧
      below.lookup ("content" : Text) =
        some ((ctx.env.declared? "content" u).getD contentDefault) := by
  obtain ⟨hw, hintact⟩ := h.wrapper? hname
  let style (e : Expr) : Evaluated :=
    (ctx.env.expr .direct (ctx.env.applyWithin Environment.applyLevels) false e {}).value
  obtain ⟨below, hbelow, hcontent⟩ := @Evaluated.foldl_merge_wrapped_aside name
    (us.map style) hname (style u)
    (List.forall_mem_map.mpr fun e he => (h.plainAt (hus e (List.mem_append_left _ he))).2)
    (h.plainAt (hus u (List.mem_append_right _ (List.mem_singleton_self u)))).2
  obtain ⟨hvalue, -, htorn⟩ := @Environment.exprs_spread ctx.env (namedVariant name)
    (asideWrapper name) .direct _ (Environment.diagnostics_applyWithin _) false hw (us ++ [u]) _
    hspread {}
  refine ⟨below, h.evaluate_eq ?_ ?_, hcontent⟩
  · refine htorn.trans (List.any_eq_false.mpr fun e he => ?_)
    rw [hintact, (h.plainAt (hus e he)).1]
    exact Bool.false_ne_true
  · refine hvalue.trans (Eq.trans ?_ hbelow)
    rw [List.map_append, List.map_append, List.map_map]
    rfl

/-- With the variant in front of the group, the last declaration decides. -/
theorem content_grouped {es : List Expr} (hnil : es ≠ []) (hes : ∀ e ∈ es, ctx.env.IsUtility e)
    {grouped : Text}
    (hgrouped : ReadsGrouped ctx.env.separator (namedVariant name) es grouped) :
    ∃ below, ctx.evaluate grouped = .ok ⟨nest (aside name) below, []⟩ ∧
      below.lookup ("content" : Text) =
        some ((es.reverse.findSome? (ctx.env.declared? "content")).getD contentDefault) := by
  obtain ⟨hw, hintact⟩ := h.wrapper? hname
  let style (e : Expr) : Evaluated :=
    (ctx.env.expr .direct (ctx.env.applyWithin Environment.applyLevels) false e {}).value
  obtain ⟨below, hbelow, hcontent⟩ := @Evaluated.wrapped_foldl_merge_aside name (es.map style)
    hname (mt List.map_eq_nil_iff.mp hnil)
    (List.forall_mem_map.mpr fun e he => (h.plainAt (hes e he)).2)
  obtain ⟨source, inner, n, members, hread, hmoved⟩ := hgrouped
  obtain ⟨hvalue, -, htorn⟩ := @Environment.exprs_grouped ctx.env (namedVariant name)
    (asideWrapper name) .direct _ (Environment.diagnostics_applyWithin _) hw es members hmoved
    source inner n
  rw [← hread] at hvalue htorn
  refine ⟨below, h.evaluate_eq ?_ ?_, ?_⟩
  · rw [hintact, Bool.false_or] at htorn
    refine htorn.trans (List.any_eq_false.mpr fun e he => ?_)
    rw [(h.plainAt (hes e he)).1]
    exact Bool.false_ne_true
  · refine hvalue.trans (Eq.trans ?_ hbelow)
    rw [Environment.value_exprs_eq_foldl h.wellKeyed
      (fun t => Environment.wellKeyed_applyWithin h.wellKeyed t _)
      fun e he => Environment.pairwise_contributions (hes e he)]
  · rw [hcontent, ← List.map_reverse, List.findSome?_map]
    rfl

end GivesContent

theorem css_of_evaluate {ctx : Context} {input : Text} {tree : StyleTree}
    (h : ctx.evaluate input = .ok ⟨tree, []⟩) : ctx.css input = .ok (StyleTree.camelize tree) := by
  rw [css, h]
  exact congrArg (Except.ok ∘ StyleTree.camelize) (gathered_unmarked ctx tree)

/-- In the context of the built-in preset, class lists of utilities that all resolve, marked or
not, which stand behind `before` or `after` one by one and as a group.  Both have styles, which all
are under the selector of the variant.  One by one the utilities have the `content` that the last
of them declares, and the default if that one declares none; as a group they have the last `content`
that is declared, and the default only if none is.  So the two agree exactly if the last utility
declares `content`, or no other one does, or the last that does declares the default. -/
theorem builtin_content {ctx : Context} (hctx : builtin = .ok ctx) {name : Text}
    (hname : name ∈ asides) {us : List Expr} {u : Expr}
    (hus : ∀ e ∈ us ++ [u], ctx.env.IsUtility e) {spread grouped : Text}
    (hspread : ReadsSpread ctx.env.separator (namedVariant name) (us ++ [u]) spread)
    (hgrouped : ReadsGrouped ctx.env.separator (namedVariant name) (us ++ [u]) grouped) :
    let own := ctx.env.declared? "content"
    ∃ below below' : StyleTree,
      ctx.evaluate spread = .ok ⟨nest (aside name) below, []⟩ ∧
      ctx.css spread = .ok (StyleTree.camelize (nest (aside name) below)) ∧
      ctx.evaluate grouped = .ok ⟨nest (aside name) below', []⟩ ∧
      ctx.css grouped = .ok (StyleTree.camelize (nest (aside name) below')) ∧
      below.lookup ("content" : Text) = some ((own u).getD contentDefault) ∧
      below'.lookup ("content" : Text) =
        some (((us ++ [u]).reverse.findSome? own).getD contentDefault) ∧
      (below.lookup ("content" : Text) = below'.lookup ("content" : Text) ↔
        (own u).isSome = true ∨ (∀ e ∈ us, own e = none) ∨
          us.reverse.findSome? own = some contentDefault) := by
  intro own
  obtain ⟨ctx', hctx', hcontent⟩ := builtin_givesContent
  obtain rfl := Except.ok.inj (hctx.symm.trans hctx')
  obtain ⟨below, hevaluate, hbelow⟩ := hcontent.content_spread hname hus hspread
  obtain ⟨below', hevaluate', hbelow'⟩ := hcontent.content_grouped hname (by simp) hus hgrouped
  refine ⟨below, below', hevaluate, css_of_evaluate hevaluate, hevaluate',
    css_of_evaluate hevaluate', hbelow, hbelow', ?_⟩
  have howns : (us ++ [u]).reverse.findSome? own = (own u).or (us.reverse.findSome? own) := by
    rw [List.reverse_append, List.findSome?_append, List.reverse_singleton,
      List.findSome?_singleton]
  have hnone : us.reverse.findSome? own = none ↔ ∀ e ∈ us, own e = none := by
    simp [List.findSome?_eq_none_iff]
  rw [hbelow, hbelow', howns, ← hnone, Option.some_inj]
  show (own u).getD contentDefault = _ ↔ _
  cases own u with
  | some v => simp
  | none =>
    cases us.reverse.findSome? own with
    | none => simp
    | some v => simp [eq_comm]

/-- The declaration is that of the last utility, so both class lists have it. -/
theorem builtin_content_last : ∃ ctx, builtin = .ok ctx ∧
    (∃ below, ctx.evaluate "before:flex before:[content:x]" = .ok ⟨nest "&::before" below, []⟩ ∧
      below.lookup ("content" : Text) = some (.scalar "x")) ∧
    ∃ below, ctx.evaluate "before:(flex [content:x])" = .ok ⟨nest "&::before" below, []⟩ ∧
      below.lookup ("content" : Text) = some (.scalar "x") := by
  let flex (n : Nat) : Expr := .utility ⟨n, "flex"⟩ (.plain ⟨n, "flex"⟩ none) false
  let content (n : Nat) : Expr :=
    .property ⟨n, "[content:x]"⟩ ⟨n + 1, "content:x"⟩ false true
  have hspread : ReadsSpread .colon (namedVariant "before") [flex 0, content 0]
      "before:flex before:[content:x]" := by
    have hread : (read .colon "before:flex before:[content:x]").exprs =
        [.span ⟨0, "before:flex"⟩ ((namedVariant "before").shift 0) (some (flex 7)),
          .span ⟨12, "before:[content:x]"⟩ ((namedVariant "before").shift 12)
            (some (content 19))] := by
      dsimp only [flex, content]
      rfl
    rw [ReadsSpread, hread]
    exact .cons ⟨_, 0, 7, rfl⟩ (.cons ⟨_, 12, 19, rfl⟩ .nil)
  have hgrouped : ReadsGrouped .colon (namedVariant "before") [flex 0, content 0]
      "before:(flex [content:x])" := by
    have hread : (read .colon "before:(flex [content:x])").exprs =
        [.span ⟨0, "before:(flex [content:x])"⟩ ((namedVariant "before").shift 0)
          (some (.group ⟨7, "(flex [content:x])"⟩ [flex 8, content 13] false true))] := by
      dsimp only [flex, content]
      rfl
    exact ⟨_, _, 0, _, hread, .cons ⟨8, rfl⟩ (.cons ⟨13, rfl⟩ .nil)⟩
  obtain ⟨ctx, hbuiltin, hflex, hdeclared⟩ : ∃ ctx, builtin = .ok ctx ∧
      (ctx.env.utilityOf (.plain ⟨0, "flex"⟩ none)).toBool = true ∧
      ctx.env.declared? "content" (content 0) = some (.scalar "x") :=
    exists_of_toOption_any (by decide +kernel)
  have hseparator : ctx.env.separator = .colon :=
    (Except.ok.inj (settings_of_build hbuiltin).2.2).symm
  have hutilities : ∀ e ∈ [flex 0] ++ [content 0], ctx.env.IsUtility e := by
    refine List.forall_mem_cons.mpr ⟨?_, List.forall_mem_singleton.mpr ⟨("content", "x"), ?_⟩⟩
    · show ∃ found, ctx.env.utilityOf (.plain ⟨0, "flex"⟩ none) = .ok found
      cases hfound : ctx.env.utilityOf (.plain ⟨0, "flex"⟩ none) with
      | ok found => exact ⟨found, rfl⟩
      | error failure =>
        rw [hfound] at hflex
        cases hflex
    · decide
  obtain ⟨below, below', hevaluate, -, hevaluate', -, hbelow, hbelow', hagree⟩ :=
    builtin_content hbuiltin (by decide) hutilities (hseparator.symm ▸ hspread)
      (hseparator.symm ▸ hgrouped)
  rw [hdeclared] at hbelow hagree
  refine ⟨ctx, hbuiltin, ⟨below, hevaluate, hbelow⟩, below', hevaluate', ?_⟩
  exact (hagree.mpr (.inl rfl)).symm.trans hbelow

/-- The declaration is that of a utility that is not the last one, so only the group has it. -/
theorem builtin_content_lost :
    let styles (content : StyleValue) : StyleTree :=
      [("&::before", .tree [("content", content), ("display", .scalar "flex")])]
    ∃ ctx, builtin = .ok ctx ∧
      ctx.css "before:[content:x] before:flex" = .ok (styles contentDefault) ∧
      ctx.css "before:([content:x] flex)" = .ok (styles (.scalar "x")) := by
  intro styles
  exact exists_of_toOption_any (by decide +kernel)

end Context
end UtilityCss
