import UtilityCss.Proofs.ClassList.Mark
import UtilityCss.Proofs.Context.Append
import UtilityCss.Proofs.Evaluation.Importance
import UtilityCss.Proofs.Evaluation.Marking

/-!
# Marks of importance

Where a selector is configured for importance, the marked and the unmarked utilities of a
class list are evaluated as if the other ones were not there, and without regard to what the
mark would do to a value.  What a class list is that a style tree applies does not matter for
this; its marks are not marks of the class list that is evaluated.

A group is evaluated as its members are, one after the other.  Where no selector is configured for
importance, the mark of a group comes to the same as marking the tree that the group has without
it, whatever is in the group and wherever the group stands.

An expression that is all of a class list, and no variant, may be marked important in front
or behind.  Both are read as the expression with the mark, and so they have the same styles
in every context.
-/

namespace UtilityCss

namespace Context

open ClassList Environment

variable {ctx : Context}

/-! ## A selector for importance -/

/-- What expressions that were read off a text evaluate to. -/
def evaluateExprs (ctx : Context) (input : Text) (es : List Expr) :
    Except CompileError Evaluated :=
  ctx.answer input (ctx.env.exprs .direct (ctx.env.applyWithin applyLevels) false es {})

theorem evaluate_eq_evaluateExprs (ctx : Context) (input : Text) :
    ctx.evaluate input = ctx.evaluateExprs input (read ctx.env.separator input).exprs := rfl

/-- If there is an answer for expressions, there is one for what is kept of them, with the same
tree of what is kept. -/
theorem evaluateExprs_exprsKeep {selector : Text}
    (hselector : ctx.env.settings.important = .selector selector) {input : Text} {es : List Expr}
    {styles : Evaluated} (h : ctx.evaluateExprs input es = .ok styles) (kept : Bool) :
    ∃ styles', ctx.evaluateExprs input (exprsKeep kept false es) = .ok styles' ∧
      styles'.part kept = styles.part kept := by
  obtain ⟨htorn, hquiet, rfl⟩ := ctx.answer_eq_ok_iff.mp h
  obtain ⟨hdiagnostics, htorn'⟩ := @fewerNotes_exprsKeep ctx.env .direct
    (ctx.env.applyWithin applyLevels) kept es false {} {}
  refine ⟨_, ctx.answer_eq_ok_iff.mpr ⟨?_, ?_, rfl⟩, part_exprsKeep _ hselector kept false es {}⟩
  · rw [htorn] at htorn'
    exact Bool.eq_false_iff.mpr fun h => absurd (htorn' h) Bool.false_ne_true
  · intro hstrict
    rw [hquiet hstrict] at hdiagnostics
    exact List.sublist_nil.mp hdiagnostics

/-- Where a selector is configured for importance, the tree of an input is the tree of what is
left of it without everything that is marked, by its own mark or by that of a group around it,
and the important tree is that of what is left without everything that is not marked.  Both are
the trees of what is left with all its marks taken off, so a mark does not change a value.  Only
the marks of the input itself lead to the important tree: it is empty for an input without marks,
whatever style trees apply, and what is evaluated to be applied adds nothing to it. -/
theorem evaluate_important_selector (ctx : Context) (selector : Text)
    (hselector : ctx.env.settings.important = .selector selector) (input : Text) :
    let es := (read ctx.env.separator input).exprs
    let styles (es : List Expr) : Evaluated :=
      (ctx.env.exprs .direct (ctx.env.applyWithin applyLevels) false es {}).value
    (ctx.env.evaluate input).value =
        ⟨(styles (exprsKeep false false es)).tree, (styles (exprsKeep true false es)).important⟩ ∧
      (∀ answer, ctx.evaluate input = .ok answer → ∃ plain marked,
        ctx.evaluateExprs input (exprsKeep false false es) = .ok plain ∧
          ctx.evaluateExprs input (exprsKeep true false es) = .ok marked ∧
          answer = ⟨plain.tree, marked.important⟩) ∧
      (ctx.env.evaluate input).value =
        ⟨(styles (exprsUnmark (exprsKeep false false es))).tree,
          (styles (exprsUnmark (exprsKeep true false es))).tree⟩ ∧
      (styles (exprsUnmark es)).important = [] ∧
      ∀ levels classes,
        (ctx.env.evaluateIn .applied (ctx.env.applyWithin levels) classes).value.important = [] := by
  intro es styles
  let apply := ctx.env.applyWithin applyLevels
  refine ⟨?_, ?_, ?_, important_exprsUnmark apply hselector es {},
    fun levels classes => important_exprs_applied _ _ false {}⟩
  · have htree := part_exprsKeep apply hselector false false es {}
    have himportant := part_exprsKeep apply hselector true false es {}
    exact congrArg₂ Evaluated.mk htree.symm himportant.symm
  · intro answer hanswer
    rw [evaluate_eq_evaluateExprs] at hanswer
    obtain ⟨plain, hplain, htree⟩ := evaluateExprs_exprsKeep hselector hanswer false
    obtain ⟨marked, hmarked, himportant⟩ := evaluateExprs_exprsKeep hselector hanswer true
    exact ⟨plain, marked, hplain, hmarked, congrArg₂ Evaluated.mk htree.symm himportant.symm⟩
  · have htree := value_exprsUnmark_exprsKeep apply hselector false es false {} []
    have himportant := value_exprsUnmark_exprsKeep apply hselector true es false {} []
    exact (congrArg₂ Evaluated.mk (congrArg Evaluated.tree htree)
      (congrArg Evaluated.tree himportant)).symm

/-- A group marked important, in it a property behind a variant, and beside it a class whose style
applies a marked property. -/
theorem evaluate_important_selector_group :
    let utilities : SpecTable UtilitySpec :=
      [(['u'], [⟨[], .fixed [("@apply", .scalar ['[', 'a', ':', 'b', ']', '!'])] .standard⟩])]
    let variants : SpecTable VariantSpec := [(['v'], [⟨[], .fixed [['&', 'v']], none⟩])]
    let settings : Settings := ⟨[':'], [], .selector ['s'], .media, []⟩
    let ctx : Context := ⟨⟨⟨.null⟩, settings, .colon, ⟨utilities, variants, []⟩⟩, [], true⟩
    let input : Text := ['u', ' ', '(', 'v', ':', '[', 'c', ':', 'd', ']', ')', '!']
    ctx.env.settings.important = .selector ['s'] ∧
      ctx.evaluate input = .ok ⟨[(['a'], .scalar "b !important")],
        [(['&', 'v'], .tree [(['c'], .scalar ['d'])])]⟩ := by
  intro utilities variants settings ctx input
  refine ⟨rfl, ?_⟩
  obtain ⟨hvalue, -⟩ := evaluate_important_selector ctx ['s'] rfl input
  refine ctx.answer_eq_ok_iff.mpr ⟨by decide, fun _ => by decide, ?_⟩
  exact hvalue.trans (by decide)

/-! ## Groups that are marked -/

theorem answer_map {α β : Type} (ctx : Context) (input : Text) (f : α → β) (r : Report α) :
    ctx.answer input (f <$> r) = (ctx.answer input r).map f := by
  unfold answer Report.strict Report.lenient
  rw [Report.torn_map, Report.diagnostics_map, Report.value_map]
  cases ctx.strict <;> cases r.torn <;> cases r.diagnostics <;> rfl

/-- A group without a mark is evaluated as its members in sequence; that it is not closed is noted
and changes nothing else.  If the setting for importance is not a selector and no variant in the
group changes what it wraps, then with the mark the group comes to the same styles with their tree
marked important, in whatever it stands and whether it is asked for or applied; the reports do not
differ otherwise.  That tree is the tree without the mark up to its texts, and all its texts end
with the mark. -/
theorem evaluate_marked_group (ctx : Context) (on : Bool)
    (hall : ctx.env.settings.important = .all on) (source : Slice) (members : List Expr)
    (closed : Bool) (hvariants : ctx.env.Postless (exprsVariants members)) :
    let group (marked : Bool) : Expr := .group source members marked closed
    (∀ mode apply important out, ctx.env.expr mode apply important (group false) out = do
        Report.noteIf (!closed) .parseIncomplete source
        ctx.env.exprs mode apply important members out) ∧
      (∀ mode apply important (out : Evaluated),
        ctx.env.expr mode apply important (group true) out.marked =
          Evaluated.marked <$> ctx.env.expr mode apply important (group false) out) ∧
      ∀ input,
        ctx.evaluateExprs input [group true] =
          (ctx.evaluateExprs input [group false]).map Evaluated.marked ∧
        ∀ marked, ctx.evaluateExprs input [group true] = .ok marked →
          ∃ plain, ctx.evaluateExprs input [group false] = .ok plain ∧
            ctx.evaluateExprs input members = .ok plain ∧
            marked.tree = StyleTree.important plain.tree ∧ marked.important = plain.important ∧
            StyleTree.bare marked.tree = StyleTree.bare plain.tree ∧
            StyleTree.AllTexts (fun text => Text.endsWith text "!important" = true)
              marked.tree := by
  intro group
  have hsequence : ∀ mode apply important out,
      ctx.env.expr mode apply important (group false) out = (do
        Report.noteIf (!closed) .parseIncomplete source
        ctx.env.exprs mode apply important members out) := by
    intro mode apply important out
    rw [expr, Bool.or_false]
  have hmarked : ∀ mode apply important (out : Evaluated),
      ctx.env.expr mode apply important (group true) out.marked =
        Evaluated.marked <$> ctx.env.expr mode apply important (group false) out := by
    intro mode apply important out
    rw [hsequence, expr, Bool.or_true, map_bind]
    congr 1
    funext _
    exact exprs_marked_eq mode apply hall important out hvariants
  have hanswer : ∀ input, ctx.evaluateExprs input [group true] =
      (ctx.evaluateExprs input [group false]).map Evaluated.marked := by
    intro input
    rw [evaluateExprs, evaluateExprs, exprs_singleton, exprs_singleton, ← answer_map]
    exact congrArg (ctx.answer input) (hmarked .direct _ false {})
  refine ⟨hsequence, hmarked, fun input => ⟨hanswer input, ?_⟩⟩
  intro marked h
  obtain ⟨plain, hplain, rfl⟩ : ∃ plain, ctx.evaluateExprs input [group false] = .ok plain ∧
      plain.marked = marked := by
    rw [hanswer] at h
    cases hgroup : ctx.evaluateExprs input [group false] with
    | error e =>
      rw [hgroup] at h
      exact absurd h (by simp [Except.map])
    | ok plain =>
      rw [hgroup] at h
      exact ⟨plain, rfl, Except.ok.inj h⟩
  refine ⟨plain, hplain, ?_, rfl, rfl, StyleTree.bare_important _, StyleTree.allTexts_important _⟩
  obtain ⟨htorn, hquiet, hvalue⟩ := ctx.answer_eq_ok_iff.mp hplain
  rw [exprs_singleton, hsequence] at htorn hquiet hvalue
  refine ctx.answer_eq_ok_iff.mpr ⟨(Bool.or_eq_false_iff.mp htorn).2, fun hstrict => ?_, hvalue⟩
  exact (List.append_eq_nil_iff.mp (hquiet hstrict)).2

/-- A component, which does not follow the setting for importance, a class that applies a property,
and a property behind a variant with two templates. -/
theorem evaluate_marked_group_component :
    let utilities : SpecTable UtilitySpec :=
      [(['u'], [⟨[], .fixed [(['a'], .scalar ['b'])] .component⟩]),
        (['w'], [⟨[], .fixed [("@apply", .scalar ['[', 'c', ':', 'd', ']'])] .standard⟩])]
    let variants : SpecTable VariantSpec := [(['v'], [⟨[], .fixed [['&', 'x'], ['&', 'y']], none⟩])]
    let settings : Settings := ⟨[':'], [], .all true, .media, []⟩
    let ctx : Context := ⟨⟨⟨.null⟩, settings, .colon, ⟨utilities, variants, []⟩⟩, [], true⟩
    let members : List Expr :=
      [.utility ⟨1, ['u']⟩ (.plain ⟨1, ['u']⟩ none) false,
        .utility ⟨3, ['w']⟩ (.plain ⟨3, ['w']⟩ none) false,
        .span ⟨5, ['v', ':', '[', 'e', ':', 'f', ']']⟩ (.named ⟨5, ['v']⟩ (.plain ⟨5, ['v']⟩ none))
          (some (.property ⟨7, ['[', 'e', ':', 'f', ']']⟩ ⟨8, ['e', ':', 'f']⟩ false true))]
    let input : Text := ['(', 'u', ' ', 'w', ' ', 'v', ':', '[', 'e', ':', 'f', ']', ')']
    let important : StyleValue := .tree [(['e'], .scalar "f !important")]
    ctx.env.Postless (exprsVariants members) ∧
      ctx.evaluateExprs input [.group ⟨0, input⟩ members false true] =
        .ok ⟨[(['a'], .scalar ['b']), (['c'], .scalar "d !important"), (['&', 'x'], important),
          (['&', 'y'], important)], []⟩ ∧
      ctx.evaluateExprs input [.group ⟨0, input⟩ members true true] =
        .ok ⟨[(['a'], .scalar "b !important"), (['c'], .scalar "d !important"),
          (['&', 'x'], important), (['&', 'y'], important)], []⟩ := by
  intro utilities variants settings ctx members input important
  have hvariants : ctx.env.Postless (exprsVariants members) := by
    intro v hv found hfound spec hspec
    obtain rfl := List.mem_singleton.mp hv
    have hregistered : ctx.env.singleVariant (.named ⟨5, ['v']⟩ (.plain ⟨5, ['v']⟩ none)) =
        .ok ⟨['v'], some ⟨[], .fixed [['&', 'x'], ['&', 'y']], none⟩,
          wrapperOf ⟨[], .fixed [], none⟩ [['&', 'x'], ['&', 'y']]⟩ := rfl
    obtain rfl := Except.ok.inj (hregistered.symm.trans hfound)
    obtain rfl := Option.some.inj hspec
    rfl
  have hplain : ctx.evaluateExprs input [.group ⟨0, input⟩ members false true] =
      .ok ⟨[(['a'], .scalar ['b']), (['c'], .scalar "d !important"), (['&', 'x'], important),
        (['&', 'y'], important)], []⟩ := by
    decide +kernel
  obtain ⟨-, -, hanswer⟩ :=
    evaluate_marked_group ctx true rfl ⟨0, input⟩ members true hvariants
  refine ⟨hvariants, hplain, (hanswer input).1.trans ?_⟩
  rw [hplain]
  decide +kernel

end Context

/-! ## Marks in front and behind -/

open ClassList

namespace Environment

variable (env : Environment) (mode : Mode) (apply : Text → Report StyleTree)

/-- Where a closed expression was read does not matter to its styles, nor to whether there is a
note on it. -/
theorem expr_marked (source source' : Slice) {e : Expr} (hclosed : e.closed = true)
    (important : Bool) (out : Evaluated) :
    let r := env.expr mode apply important (e.marked source) out
    let r' := env.expr mode apply important (e.marked source') out
    r.value = r'.value ∧ r.torn = r'.torn ∧ (r.diagnostics = [] ↔ r'.diagnostics = []) := by
  intro r r'
  cases e with
  | group _ members _ closed =>
    obtain rfl : closed = true := hclosed
    exact ⟨rfl, rfl, Iff.rfl⟩
  | span _ variant child => cases child <;> exact ⟨rfl, rfl, Iff.rfl⟩
  | utility _ head _ =>
    have hclosed' : head.closed = true := hclosed
    simp only [r, r', Expr.marked, expr, hclosed', Bool.not_true, Report.noteIf_false, pure_bind]
    cases env.utilityOf head with
    | ok found => exact ⟨rfl, rfl, Iff.rfl⟩
    | error failure =>
      refine ⟨rfl, by cases failure <;> rfl, ?_⟩
      cases failure <;> simp [Failure.report, Report.tear]
  | property _ value _ closed =>
    obtain rfl : closed = true := hclosed
    simp only [r, r', Expr.marked, expr, Bool.not_true, Report.noteIf_false, pure_bind]
    cases Bracketed.declaration? value.text with
    | some declaration => exact ⟨rfl, rfl, Iff.rfl⟩
    | none => exact ⟨rfl, rfl, by simp⟩

end Environment

namespace Context

/-- If an expression is all of a class list, closed and unmarked, and it is a utility, a property
or a group, then a mark of importance in front of it and one behind it have the same outline,
which is that of the expression with the mark.  In every context both have the same answer, if
they have one, namely that of the expression with the mark. -/
theorem evaluate_mark (sep : Separator) (x : Text) (e : Expr) (hread : (read sep x).exprs = [e])
    (hsource : e.source = ⟨0, x⟩) (hclosed : e.closed = true) (hmark : e.Markable sep) :
    (read sep ('!' :: x)).outline = Program.outline ⟨⟨0, x⟩, [e.marked e.source]⟩ ∧
      (read sep (x ++ ['!'])).outline = Program.outline ⟨⟨0, x⟩, [e.marked e.source]⟩ ∧
      ∀ ctx : Context, ctx.env.separator = sep →
        let answer := (ctx.answer x
          (ctx.env.exprs .direct (ctx.env.applyWithin Environment.applyLevels) false
            [e.marked e.source] {})).toOption
        (ctx.evaluate ('!' :: x)).toOption = answer ∧
          (ctx.evaluate (x ++ ['!'])).toOption = answer ∧
          (ctx.css ('!' :: x)).toOption = (ctx.css (x ++ ['!'])).toOption := by
  obtain ⟨hfront, hbehind⟩ := read_mark hread hsource hclosed hmark
  have houtline : ∀ (p : Program) (e' : Expr), p.exprs = [e'] →
      e'.outline = (e.marked e.source).outline →
      p.outline = Program.outline ⟨⟨0, x⟩, [e.marked e.source]⟩ := by
    intro p e' hp he
    show "(program".toList ++ exprsOutline p.exprs ++ [')'] =
      "(program".toList ++ exprsOutline [e.marked e.source] ++ [')']
    rw [hp, exprsOutline_cons, exprsOutline_cons, he]
  refine ⟨houtline _ _ hfront ?_, houtline _ _ hbehind (Expr.outline_marked _ _ e), ?_⟩
  · rw [Expr.outline_marked _ ((e.source).shift 1), ← Expr.shift_marked, Expr.outline_shift]
  · rintro ctx rfl answer
    let apply := ctx.env.applyWithin Environment.applyLevels
    have hanswer : ∀ (t : Text) (e' : Expr), (read ctx.env.separator t).exprs = [e'] →
        (ctx.evaluate t).toOption =
          (ctx.answer t (ctx.env.expr .direct apply false e' {})).toOption := by
      intro t e' ht
      show (ctx.answer t (ctx.env.exprs .direct apply false (read ctx.env.separator t).exprs {})
        ).toOption = _
      rw [ht, Environment.exprs_singleton]
    have hfront' : (ctx.evaluate ('!' :: x)).toOption = answer := by
      -- the expression of the source without the mark, one character further on
      have hquiet : ∀ t, (apply t).diagnostics = [] := Environment.diagnostics_applyWithin _
      have hmoved := @Environment.expr_shift ctx.env 1 .direct apply hquiet
        (e.marked e.source) false {}
      have hclosed' : (e.shift 1).closed = true := (Expr.closed_shift e).trans hclosed
      obtain ⟨hvalue, htorn, hnotes⟩ := ctx.env.expr_marked .direct apply
        ⟨0, '!' :: x⟩ (e.source.shift 1) hclosed' false {}
      rw [← Expr.shift_marked, hmoved] at hvalue htorn hnotes
      rw [hanswer _ _ hfront]
      show _ = (ctx.answer x (ctx.env.exprs .direct apply false _ {})).toOption
      rw [Environment.exprs_singleton]
      exact answer_toOption_congr hvalue (hnotes.trans List.map_eq_nil_iff) htorn
    have hbehind' : (ctx.evaluate (x ++ ['!'])).toOption = answer := by
      obtain ⟨hvalue, htorn, hnotes⟩ := ctx.env.expr_marked .direct apply
        ⟨0, x ++ ['!']⟩ e.source hclosed false {}
      rw [hanswer _ _ hbehind]
      show _ = (ctx.answer x (ctx.env.exprs .direct apply false _ {})).toOption
      rw [Environment.exprs_singleton]
      exact answer_toOption_congr hvalue hnotes htorn
    exact ⟨hfront', hbehind', by rw [css_toOption, css_toOption, hfront', hbehind']⟩

/-- A group of a property and a utility with a modifier. -/
theorem evaluate_mark_group :
    let settings : Settings := ⟨[':'], [], .all false, .media, []⟩
    let ctx : Context := ⟨⟨⟨.null⟩, settings, .colon, .empty⟩, [], false⟩
    let x : Text := ['(', '[', 'c', ':', 'd', ']', ' ', 'a', '/', 'b', ')']
    (read .colon ('!' :: x)).outline = (read .colon (x ++ ['!'])).outline ∧
      ctx.evaluate (x ++ ['!']) = .ok ⟨[(['c'], .scalar "d !important")], []⟩ ∧
      (ctx.evaluate ('!' :: x)).toOption = (ctx.evaluate (x ++ ['!'])).toOption := by
  intro settings ctx x
  let e : Expr := .group ⟨0, x⟩
    [.property ⟨1, ['[', 'c', ':', 'd', ']']⟩ ⟨2, ['c', ':', 'd']⟩ false true,
      .utility ⟨7, ['a', '/', 'b']⟩
        (.plain ⟨7, ['a', '/', 'b']⟩ (some ⟨⟨9, ['b']⟩, false, true⟩)) false] false true
  have hread : (read .colon x).exprs = [e] := by
    dsimp only [x, e]
    rfl
  obtain ⟨hfront, hbehind, hanswer⟩ := evaluate_mark .colon x e hread rfl rfl rfl
  obtain ⟨hfront', hbehind', -⟩ := hanswer ctx rfl
  exact ⟨hfront.trans hbehind.symm, by decide, hfront'.trans hbehind'.symm⟩

end Context
end UtilityCss
