import UtilityCss.Proofs.Context.Wrap

/-!
# Variants that do not resolve

In front of an expression a variant that does not resolve takes the expression with it:
nothing inside of it is added to the styles.  Composing wrappers does not go that way.
There a variant that does not resolve is noted and passed over, and the others are kept,
so unless the context is strict, and refuses the text for the note, what was meant to be
wrapped in it comes out as if the variant had not been written.
-/

namespace UtilityCss

namespace Environment

open ClassList

variable {env : Environment} {mode : Mode} {apply : Text → Report StyleTree}

/-- A variant that does not resolve leaves nothing of what is inside of it. -/
theorem value_expr_of_unresolved {x : ClassList.Variant} (hx : ¬ env.Resolves x) :
    ∀ (e : ClassList.Expr) (important : Bool), x ∈ e.spine →
      (env.expr mode apply important e {}).value = {}
  | .span _ v none, _, _ => rfl
  | .span _ v (some child), important, hmem => by
    rw [expr, Report.value_bind, Report.value_bind]
    rcases List.mem_cons.mp hmem with rfl | hmem
    · have hnone : (env.wrapper? x).value = none := by simpa [Resolves] using hx
      rw [hnone]
      rfl
    · rw [value_expr_of_unresolved hx child important hmem]
      cases (env.wrapper? v).value <;> rfl
  | .group .., _, hmem => absurd hmem List.not_mem_nil
  | .utility .., _, hmem => absurd hmem List.not_mem_nil
  | .property .., _, hmem => absurd hmem List.not_mem_nil

end Environment

namespace Context

open ClassList

variable {ctx : Context}

/-- A lenient context answers with the wrappers of the variants that resolve. -/
theorem wrap_of_lenient (hlenient : ctx.strict = false) (input : Text) :
    ctx.wrap input = .ok (ctx.env.kept (ctx.variantsOf input)) := by
  obtain ⟨t, ht⟩ := ctx.wrap_eq_answer input
  have htorn : (ctx.env.wrapExprs (ctx.wrapExprs input) .identity).torn = false :=
    Environment.torn_wrapExprs _ _ (ctx.sound_of_mem_wrapExprs input)
  rw [ht, answer, hlenient, if_neg Bool.false_ne_true, Report.lenient, htorn,
    if_neg Bool.false_ne_true, Environment.value_wrapExprs]
  rfl

/-- A strict context refuses a text with a variant that does not resolve. -/
theorem wrap_of_strict (hstrict : ctx.strict = true) {input : Text}
    (hunresolved : ∃ x ∈ ctx.variantsOf input, ¬ ctx.env.Resolves x) :
    ∃ error, ctx.wrap input = .error error := by
  obtain ⟨x, hx, hno⟩ := hunresolved
  obtain ⟨e, he, hxe⟩ := List.mem_flatMap.mp hx
  obtain ⟨t, ht⟩ := ctx.wrap_eq_answer input
  have hsound := ctx.sound_of_mem_wrapExprs input
  have hnoted : (ctx.env.wrapExprs (ctx.wrapExprs input) .identity).diagnostics ≠ [] := by
    intro hnil
    exact hno (((Environment.diagnostics_wrapExprs _ _ hsound).mp hnil e he).2 x hxe)
  refine ⟨.rejected t (ctx.env.wrapExprs (ctx.wrapExprs input) .identity).diagnostics, ?_⟩
  rw [ht, answer, hstrict, if_pos rfl, Report.strict, Environment.torn_wrapExprs _ _ hsound,
    if_neg Bool.false_ne_true, if_neg (by simpa using hnoted)]

/-- Behind a variant that does not resolve a text compiles to nothing, if it compiles. -/
theorem css_of_unresolved {x : ClassList.Variant} (hx : ¬ ctx.env.Resolves x) {t : Text}
    {e : ClassList.Expr} (hread : (read ctx.env.separator t).exprs = [e]) (hmem : x ∈ e.spine)
    {styles : StyleTree} (hcss : ctx.css t = .ok styles) : styles = [] := by
  have hvalue : (ctx.env.evaluate t).value = {} := by
    show (ctx.env.exprs .direct _ false (read ctx.env.separator t).exprs {}).value = {}
    rw [hread, Environment.exprs_singleton]
    exact Environment.value_expr_of_unresolved hx e false hmem
  unfold css at hcss
  cases hevaluate : ctx.evaluate t with
  | error error =>
    rw [hevaluate] at hcss
    exact absurd hcss (by simp [Except.map])
  | ok evaluated =>
    have hlenient := ctx.answer_eq_lenient hevaluate
    obtain rfl : evaluated = {} := by
      unfold Report.lenient at hlenient
      split at hlenient
      · exact absurd hlenient (by simp)
      · rw [← Except.ok.inj hlenient, hvalue]
    rw [hevaluate] at hcss
    rw [← Except.ok.inj hcss]
    unfold gathered
    split <;> rfl

/-- A text in which a variant does not resolve, be it a link deep inside of a group, is
refused or wraps a tree to nothing exactly if the context is strict or the variants that do
resolve wrap the tree to nothing.  Regular variants do that to the empty tree only.  In
front of an expression the same variant leaves nothing, whatever the context. -/
theorem wrap_unresolved (ctx : Context) (v : Text) (x : ClassList.Variant)
    (hx : x ∈ (ctx.variantsOf v).flatMap Variant.parts) (hunresolved : ¬ ctx.env.Resolves x) :
    (∀ tree, ((∃ error, ctx.wrap v = .error error) ∨ ∃ w, ctx.wrap v = .ok w ∧ w.apply tree = []) ↔
      ctx.strict = true ∨ (ctx.env.kept (ctx.variantsOf v)).apply tree = []) ∧
    (ctx.env.registry.Regular → ∀ tree,
      (ctx.env.kept (ctx.variantsOf v)).apply tree = [] ↔ tree = []) ∧
    ∀ u e, (read ctx.env.separator (v ++ u)).exprs = [e] → x ∈ e.spine.flatMap Variant.parts →
      ∀ styles, ctx.css (v ++ u) = .ok styles → styles = [] := by
  refine ⟨?_, ?_, ?_⟩
  · intro tree
    cases hstrict : ctx.strict with
    | true =>
      obtain ⟨y, hy, hxy⟩ := List.mem_flatMap.mp hx
      have herror := wrap_of_strict hstrict ⟨y, hy, fun h => hunresolved (h.of_mem_parts x hxy)⟩
      exact ⟨fun _ => Or.inl rfl, fun _ => Or.inl herror⟩
    | false =>
      have hwrap := wrap_of_lenient hstrict v
      constructor
      · rintro (⟨error, herror⟩ | ⟨w, hw, happly⟩)
        · rw [hwrap] at herror
          exact absurd herror (by simp)
        · rw [hwrap] at hw
          rw [Except.ok.inj hw]
          exact Or.inr happly
      · rintro (hfalse | happly)
        · exact absurd hfalse Bool.false_ne_true
        · exact Or.inr ⟨_, hwrap, happly⟩
  · intro hregular tree
    exact (Environment.lasting_kept fun v _ => Environment.lasts_of_regular hregular v).apply_eq_nil_iff
  · intro u e hread hmem styles hcss
    obtain ⟨y, hy, hxy⟩ := List.mem_flatMap.mp hmem
    exact css_of_unresolved (fun h => hunresolved (h.of_mem_parts x hxy)) hread hy hcss

/-- Two names, each with a colon behind it. -/
theorem isChain_two : IsChain .colon ['a', ':', 'n', ':']
    [.named ⟨0, ['a']⟩ (.plain ⟨0, ['a']⟩ none), .named ⟨2, ['n']⟩ (.plain ⟨2, ['n']⟩ none)] :=
  ⟨by decide, some (.span ⟨0, ['a', ':', 'n', ':']⟩ _ (some (.span ⟨2, ['n', ':']⟩ _ none))), rfl,
    .outside (.outside .here)⟩

/-- Here the variant `a` is registered and `n` is not. -/
theorem wrap_unresolved_behind :
    let registry : Registry := ⟨[], [(['a'], [⟨[], .fixed [['&', 'a']], none⟩])], []⟩
    let settings : Settings := ⟨[':'], [], .all false, .media, []⟩
    let ctx : Context := ⟨⟨⟨.null⟩, settings, .colon, registry⟩, [], true⟩
    ∀ tree, (∃ error, ctx.wrap ['a', ':', 'n', ':'] = .error error) ∨
      ∃ w, ctx.wrap ['a', ':', 'n', ':'] = .ok w ∧ w.apply tree = [] := by
  intro registry settings ctx tree
  have hvariants := (@variantsOf_of_isChain ctx _ _ isChain_two).1
  have hmem : (.named ⟨2, ['n']⟩ (.plain ⟨2, ['n']⟩ none) : ClassList.Variant) ∈
      (ctx.variantsOf ['a', ':', 'n', ':']).flatMap Variant.parts := by
    rw [hvariants]
    exact List.mem_cons_of_mem _ List.mem_cons_self
  exact ((wrap_unresolved ctx ['a', ':', 'n', ':'] _ hmem (by decide)).1 tree).mpr (Or.inl rfl)

/-- In a lenient context the variant that is not registered is passed over, and a tree is
wrapped in the other one as if nothing had been behind it. -/
theorem wrap_unresolved_lenient :
    let registry : Registry := ⟨[], [(['a'], [⟨[], .fixed [['&', 'a']], none⟩])], []⟩
    let settings : Settings := ⟨[':'], [], .all false, .media, []⟩
    let ctx : Context := ⟨⟨⟨.null⟩, settings, .colon, registry⟩, [], false⟩
    let tree : StyleTree := [(['d'], .scalar ['f'])]
    (∃ x ∈ ctx.variantsOf ['a', ':', 'n', ':'], ¬ ctx.env.Resolves x) ∧
      ¬ ((∃ error, ctx.wrap ['a', ':', 'n', ':'] = .error error) ∨
        ∃ w, ctx.wrap ['a', ':', 'n', ':'] = .ok w ∧ w.apply tree = []) := by
  intro registry settings ctx tree
  have hvariants := (@variantsOf_of_isChain ctx _ _ isChain_two).1
  have hwrap : ctx.wrap ['a', ':', 'n', ':'] = .ok (ctx.env.kept _) := wrap_of_lenient rfl _
  rw [hvariants] at hwrap
  constructor
  · rw [hvariants]
    exact ⟨_, List.mem_cons_of_mem _ List.mem_cons_self, by decide⟩
  · rintro (⟨error, herror⟩ | ⟨w, hw, happly⟩)
    · rw [hwrap] at herror
      exact absurd herror (by simp)
    · rw [hwrap] at hw
      rw [← Except.ok.inj hw] at happly
      exact absurd happly (by decide)

end Context
end UtilityCss
