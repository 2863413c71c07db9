import UtilityCss.Proofs.ClassList.Behind
import UtilityCss.Proofs.ClassList.Juxtaposition
import UtilityCss.Proofs.Context.Wrap
import UtilityCss.Proofs.Evaluation.Importance
import UtilityCss.Proofs.Evaluation.Nesting
import UtilityCss.Proofs.Evaluation.Static

/-!
# Classes that stand for a class list

A class that is registered with nothing but the application of a class list has the styles of
that class list.  The class list is read off its text without the blanks around it.  They make a
difference where something in the text is left open, because that takes the blanks at the end
along.
-/

namespace UtilityCss

open ClassList

/-- The plain name `c` is registered once, for what applying `s` gives. -/
structure Environment.Applies (env : Environment) (c s : Text) : Prop where
  name : IsName env.separator c
  specs : ∃ plugin flags,
    env.registry.utilities.specs c = [⟨plugin, .fixed [("@apply", .scalar s)] flags⟩]

namespace Environment

variable {env : Environment} {c s : Text}

theorem splitImportant_of_unmarked (h : Text.endsWith (Text.trim s) "!important" = false) :
    splitImportant s = (Text.trim s, false) := by
  rw [splitImportant]
  rw [Text.endsWith, Option.isSome_eq_false_iff, Option.isNone_iff_eq_none] at h
  rw [h]

/-- Applying is the only thing in a tree that applies a class list and does nothing else. -/
theorem expand_applied (apply : Text → Report StyleTree) (s : Text) :
    Directive.expand env apply [("@apply", .scalar s)] =
      (do return StyleTree.merge [] (← apply s)) := by
  have hneeded : Directive.isNeeded [("@apply", .scalar s)] = true := by
    rw [Directive.isNeeded]
    rfl
  rw [Directive.expand, if_pos hneeded, Directive.expandEntries, Directive.expandEntry_of_applied rfl]
  exact bind_pure _

/-- Applied with a level to spare for what nests inside, the class list has the styles that it
has for whoever asks. -/
theorem applyWithin_of_nestsWithin (himportant : env.settings.important = .all false)
    (hmark : Text.endsWith (Text.trim s) "!important" = false)
    (hnest : env.NestsWithin 31 (Text.trim s)) :
    env.applyWithin applyLevels s = Evaluated.tree <$> (env.evaluate (Text.trim s)).silent := by
  have heval : env.evaluateIn .applied (env.applyWithin 31) (Text.trim s) =
      env.evaluate (Text.trim s) :=
    evaluateIn_congr hnest (Nat.le_refl 31) (by decide) himportant
  rw [applyLevels, applyWithin_succ, splitImportant_of_unmarked hmark, heval]
  rfl

/-- The class has the styles of the class list that it applies. -/
theorem evaluate_applies (hlead : env.settings.lead = [])
    (himportant : env.settings.important = .all false) (hc : env.Applies c s)
    (hmark : Text.endsWith (Text.trim s) "!important" = false)
    (hnest : env.NestsWithin 31 (Text.trim s)) :
    env.evaluate c = (env.evaluate (Text.trim s)).silent := by
  obtain ⟨plugin, flags, hspecs⟩ := hc.specs
  have hfound : env.utilityOf (plainHead 0 c) = .ok ⟨c, _, _⟩ :=
    utilityOf_of_specs hlead (laid_plainHead 0 c []) (closed_plainHead 0 c) hspecs
  have hdistinct : (env.evaluate (Text.trim s)).value.Distinct :=
    distinct_exprs _ _ _ Evaluated.distinct_empty
  have hnone : (env.evaluate (Text.trim s)).value.important = [] := by
    have heval : env.evaluate (Text.trim s) =
        env.evaluateIn .applied (env.applyWithin 31) (Text.trim s) :=
      evaluateIn_congr hnest (by decide) (Nat.le_refl 31) himportant
    rw [heval]
    exact important_exprs_applied _ _ _ {}
  show env.exprs .direct (env.applyWithin applyLevels) false (read env.separator c).exprs {} = _
  rw [hc.name.read_eq, exprs_singleton, plainUtility, expr, closed_plainHead, Bool.not_true,
    Report.noteIf_false, pure_bind, hfound]
  dsimp only
  have hstyle : ∀ key spec, spec.isLookup = false →
      env.styleOf (env.applyWithin applyLevels) ⟨key, spec, [("@apply", .scalar s)]⟩ =
        Evaluated.tree <$> (env.evaluate (Text.trim s)).silent := by
    intro key spec hspec
    rw [styleOf, hspec, if_neg Bool.false_ne_true, expand_applied,
      applyWithin_of_nestsWithin himportant hmark hnest]
    ext : 1
    · exact StyleTree.nil_merge hdistinct.tree
    · rfl
    · exact Bool.or_false _
  rw [hstyle _ _ rfl]
  ext : 1
  · show env.emit .direct flags false _ {} = _
    unfold emit
    rw [himportant]
    show (⟨StyleTree.merge [] (env.evaluate (Text.trim s)).value.tree, []⟩ : Evaluated) =
      (env.evaluate (Text.trim s)).value
    rw [StyleTree.nil_merge hdistinct.tree, ← hnone]
  · rfl
  · exact (Bool.or_false _).trans (Bool.or_false _)

end Environment

namespace Context

variable {ctx : Context}

/-- Blanks around a class list in which nothing is open change nothing. -/
theorem evaluate_trim (hlenient : ctx.strict = false) {s : Text}
    (hclosed : ∀ n ∈ (read ctx.env.separator (Text.trim s)).listing, n.closed = true) :
    ctx.evaluate (Text.trim s) = ctx.evaluate s := by
  obtain ⟨b, b', hs, hb, hb'⟩ := Text.exists_blanks s
  have hread := read_blanks ctx.env.separator hb hb' hclosed
  rw [← hs] at hread
  have hshift : ctx.env.evaluate s = (ctx.env.evaluate (Text.trim s)).shift (Text.bytes b) := by
    show ctx.env.exprs .direct _ false (read ctx.env.separator s).exprs {} = _
    rw [hread, Environment.exprs_shift (Environment.diagnostics_applyWithin _)]
    rfl
  refine answer_congr_of_lenient hlenient ?_ ?_
  · rw [hshift, Report.value_shift]
  · rw [hshift, Report.torn_shift]

/-- In a lenient context where names have no configured beginning and nothing is important that is
not marked, a class that applies the class list `s`, which is not marked important as a whole and
in which class lists are applied at most 31 levels deep, has the styles of `s` without the blanks
around it, and of `s` itself if nothing in it is open.  Behind a chain of variants that resolve,
each of which leaves something of what it wraps, it has these styles with the wrapper of the chain
applied. -/
theorem evaluate_apply (ctx : Context) (hlenient : ctx.strict = false)
    (hlead : ctx.env.settings.lead = []) (himportant : ctx.env.settings.important = .all false)
    {c s : Text} (hc : ctx.env.Applies c s)
    (hmark : Text.endsWith (Text.trim s) "!important" = false)
    (hnest : ctx.env.NestsWithin 31 (Text.trim s)) :
    ctx.evaluate c = ctx.evaluate (Text.trim s) ∧
      ((∀ n ∈ (read ctx.env.separator (Text.trim s)).listing, n.closed = true) →
        ctx.evaluate c = ctx.evaluate s) ∧
      ∀ v vs, IsChain ctx.env.separator v vs → (∀ x ∈ vs, ctx.env.Resolves x) →
        (∀ x ∈ vs, ctx.env.Lasts x) →
        ∃ w, ctx.wrap v = .ok w ∧
          (ctx.evaluate (v ++ c)).toOption =
            (ctx.evaluate (Text.trim s)).toOption.map fun styles =>
              ⟨w.apply styles.tree, w.apply styles.important⟩ := by
  have hreport := Environment.evaluate_applies hlead himportant hc hmark hnest
  have happlied : ctx.evaluate c = ctx.evaluate (Text.trim s) := by
    refine answer_congr_of_lenient hlenient ?_ ?_ <;> rw [hreport] <;> rfl
  refine ⟨happlied, fun hclosed => happlied.trans (evaluate_trim hlenient hclosed), ?_⟩
  intro v vs hv hresolve hlasts
  refine ⟨ctx.env.kept vs, wrap_of_isChain hv hresolve, ?_⟩
  rw [evaluate_of_isChain hv hresolve hlasts (hv.readsInside hc.name), happlied]
  rfl

/-- A class that applies a property with a blank behind it, on its own and behind a variant. -/
theorem evaluate_apply_property :
    let settings : Settings := ⟨[':'], [], .all false, .media, []⟩
    let s : Text := ['[', 'a', ':', 'b', ']', ' ']
    let registry : Registry :=
      ⟨[(['c'], [⟨[], .fixed [("@apply", .scalar s)] .component⟩])],
        [(['h'], [⟨[], .fixed [['&', 'x']], none⟩])], []⟩
    let ctx : Context := ⟨⟨⟨.null⟩, settings, .colon, registry⟩, [], false⟩
    ctx.evaluate ['c'] = .ok ⟨[(['a'], .scalar ['b'])], []⟩ ∧ ctx.evaluate ['c'] = ctx.evaluate s ∧
      ∃ w, ctx.wrap ['h', ':'] = .ok w ∧
        (ctx.evaluate ['h', ':', 'c']).toOption =
          (ctx.evaluate (Text.trim s)).toOption.map fun styles =>
            ⟨w.apply styles.tree, w.apply styles.important⟩ := by
  intro settings s registry ctx
  have hregular : ctx.env.registry.Regular := by
    refine Registry.regular_of_entries ?_
    intro entry hentry spec hspec
    obtain rfl := List.mem_singleton.mp hentry
    obtain rfl := List.mem_singleton.mp hspec
    refine ⟨?_, fun post hpost => absurd hpost (by simp)⟩
    intro templates hrule
    rw [← VariantRule.fixed.inj hrule]
    exact List.cons_ne_nil _ _
  have hchain : IsChain .colon ['h', ':'] [.named ⟨0, ['h']⟩ (.plain ⟨0, ['h']⟩ none)] :=
    ⟨by decide, some (.span ⟨0, ['h', ':']⟩ (.named ⟨0, ['h']⟩ (.plain ⟨0, ['h']⟩ none)) none), rfl,
      .outside .here⟩
  have happlies : ctx.env.Applies ['c'] s := ⟨by decide, [], .component, rfl⟩
  obtain ⟨happlied, hclosed, hbehind⟩ :=
    evaluate_apply ctx rfl rfl rfl happlies (by decide) (by decide)
  refine ⟨happlied.trans ?_, hclosed (by decide), hbehind _ _ hchain (by decide) fun x _ =>
    Environment.lasts_of_regular hregular x⟩
  decide

/-- A modifier that is left open takes the blank behind it along, but not when the class list is
applied.  And a variant without templates leaves nothing: around it, `wrap` still adds what
another variant adds, while evaluating a class list does not. -/
theorem evaluate_apply_open :
    let settings : Settings := ⟨[':'], [], .all false, .media, []⟩
    let s : Text := ['m', '-', '[', 'v', ']', '/', '[', 'x', ' ']
    let m : LookupUtility :=
      ⟨[], [.any], .standard, fun text info => [(text, .scalar (info.modifier.getD []))], none⟩
    let registry : Registry :=
      ⟨[(['c'], [⟨[], .fixed [("@apply", .scalar s)] .standard⟩]), (['m'], [⟨[], .lookup m⟩])],
        [(['v'], [⟨[], .fixed [['&', 'v']], none⟩]), (['n'], [⟨[], .fixed [], none⟩])], []⟩
    let ctx : Context := ⟨⟨⟨.null⟩, settings, .colon, registry⟩, [], false⟩
    let chain : Text := ['v', ':', 'n', ':']
    let variants : List ClassList.Variant :=
      [.named ⟨0, ['v']⟩ (.plain ⟨0, ['v']⟩ none), .named ⟨2, ['n']⟩ (.plain ⟨2, ['n']⟩ none)]
    ctx.env.Applies ['c'] s ∧ Text.endsWith (Text.trim s) "!important" = false ∧
      ctx.env.NestsWithin 31 (Text.trim s) ∧
      (ctx.evaluate ['c'] = .ok ⟨[(['v'], .scalar ['x'])], []⟩ ∧
        ctx.evaluate s = .ok ⟨[(['v'], .scalar ['x', ' '])], []⟩) ∧
      IsChain .colon chain variants ∧ (∀ x ∈ variants, ctx.env.Resolves x) ∧
      ctx.evaluate (chain ++ ['c']) = .ok ⟨[], []⟩ ∧
      ∃ w, ctx.wrap chain = .ok w ∧
        w.apply [(['v'], .scalar ['x', ' '])] = [(['&', 'v'], .tree [])] := by
  intro settings s m registry ctx chain variants
  have hchain : IsChain .colon chain variants :=
    ⟨by decide, some (.span ⟨0, chain⟩ (.named ⟨0, ['v']⟩ (.plain ⟨0, ['v']⟩ none))
      (some (.span ⟨2, ['n', ':']⟩ (.named ⟨2, ['n']⟩ (.plain ⟨2, ['n']⟩ none)) none))), rfl,
      .outside (.outside .here)⟩
  have hresolve : ∀ x ∈ variants, ctx.env.Resolves x := by decide
  exact ⟨⟨by decide, [], .standard, rfl⟩, by decide, by decide,
    ⟨by decide +kernel, by decide +kernel⟩, hchain, hresolve, by decide +kernel, _,
    wrap_of_isChain hchain hresolve, by decide +kernel⟩

end Context
end UtilityCss
