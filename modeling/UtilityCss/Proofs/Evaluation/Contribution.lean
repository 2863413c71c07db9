import UtilityCss.Proofs.Evaluation.Fault
import UtilityCss.Proofs.Evaluation.WellKeyed

/-!
# What is merged into the styles

Evaluation carries the styles along and merges into them what each expression adds.  What
an expression adds does not depend on the styles so far, nor do the notes taken on it.  So
the styles of a class list are what its expressions add, merged one after the other, and if
that agrees on where something is nested, it may be merged together before it is merged
into what was there.
-/

namespace UtilityCss

/-! ## Styles that agree -/

namespace Evaluated

/-- The trees agree, and so do those that were marked important. -/
structure Agree (e f : Evaluated) : Prop where
  tree : StyleTree.Agree e.tree f.tree
  important : StyleTree.Agree e.important f.important

theorem merge_self {e : Evaluated} (h : e.WellKeyed) : merge e e = e := by
  rw [merge, StyleTree.merge_self h.tree, StyleTree.merge_self h.important]

theorem foldl_merge_eq (es : List Evaluated) (out : Evaluated) :
    es.foldl merge out = ⟨(es.map tree).foldl StyleTree.merge out.tree,
      (es.map important).foldl StyleTree.merge out.important⟩ := by
  induction es generalizing out with
  | nil => rfl
  | cons e rest ih => rw [List.foldl_cons, ih]; rfl

/-- Styles that agree with each other may be merged together before they are merged in. -/
theorem foldl_merge {es : List Evaluated} (hkeyed : ∀ e ∈ es, e.WellKeyed)
    (hagree : es.Pairwise Agree) (out : Evaluated) :
    es.foldl merge out = out.merge (es.foldl merge {}) := by
  have htrees : (es.map tree).foldl StyleTree.merge out.tree =
      StyleTree.merge out.tree ((es.map tree).foldl StyleTree.merge []) := by
    refine StyleTree.foldl_merge ?_ (List.pairwise_map.mpr (hagree.imp Agree.tree)) out.tree
    intro t ht
    obtain ⟨e, he, rfl⟩ := List.mem_map.mp ht
    exact (hkeyed e he).tree
  have himportant : (es.map important).foldl StyleTree.merge out.important =
      StyleTree.merge out.important ((es.map important).foldl StyleTree.merge []) := by
    refine StyleTree.foldl_merge ?_ (List.pairwise_map.mpr (hagree.imp Agree.important))
      out.important
    intro t ht
    obtain ⟨e, he, rfl⟩ := List.mem_map.mp ht
    exact (hkeyed e he).important
  rw [foldl_merge_eq, foldl_merge_eq, htrees, himportant]
  rfl

end Evaluated

/-- The same notes were taken, and both are torn if one is. -/
def Report.SameNotes {α : Type} (r s : Report α) : Prop :=
  r.diagnostics = s.diagnostics ∧ r.torn = s.torn

theorem Report.SameNotes.bind {α β : Type} (r : Report α) {f g : α → Report β}
    (h : ∀ a, (f a).SameNotes (g a)) : (r >>= f).SameNotes (r >>= g) :=
  ⟨by rw [diagnostics_bind, diagnostics_bind, (h r.value).1],
    by rw [torn_bind, torn_bind, (h r.value).2]⟩

namespace Environment

/-! ## Contributions -/

section

variable (env : Environment) (mode : Mode) (apply : Text → Report StyleTree)

mutual

/-- What an expression adds to the styles; a group adds what its members add. -/
def exprContributions (important : Bool) : ClassList.Expr → List Evaluated
  | .group _ members marked _ => exprsContributions (important || marked) members
  | .span source variant child =>
    [(env.expr mode apply important (.span source variant child) {}).value]
  | .utility source head marked =>
    [(env.expr mode apply important (.utility source head marked) {}).value]
  | .property source value marked closed =>
    [(env.expr mode apply important (.property source value marked closed) {}).value]

/-- What expressions add to the styles, in order. -/
def exprsContributions (important : Bool) : List ClassList.Expr → List Evaluated
  | [] => []
  | e :: rest => exprContributions important e ++ exprsContributions important rest

end

end

/-- What is merged into the styles of a class list, in order. -/
def contributions (env : Environment) (input : Text) : List Evaluated :=
  env.exprsContributions .direct (env.applyWithin applyLevels) false
    (ClassList.read env.separator input).exprs

variable {env : Environment} {mode : Mode} {apply : Text → Report StyleTree}

/-- Adding a style is merging it in. -/
theorem emit_eq_merge (flags : Flags) (marked : Bool) {tree : StyleTree}
    (h : StyleTree.WellKeyed tree) (out : Evaluated) :
    env.emit mode flags marked tree out = out.merge (env.emit mode flags marked tree {}) := by
  rcases env.emit_cases mode flags marked tree with himportant | ⟨added, rfl | rfl, hadded⟩
  · rw [himportant, himportant, Evaluated.merge, StyleTree.nil_merge h.distinct]
    rfl
  · rw [hadded, hadded, Evaluated.merge, StyleTree.nil_merge h.distinct]
    rfl
  · rw [hadded, hadded, Evaluated.merge, StyleTree.nil_merge h.important.distinct]
    rfl

mutual

/-- Evaluating an expression merges in what the expression adds. -/
theorem value_expr (hregistry : env.registry.WellKeyed)
    (happly : ∀ t, StyleTree.WellKeyed (apply t).value) : ∀ (e : ClassList.Expr)
      (important : Bool) (out : Evaluated), (env.expr mode apply important e out).value =
        (env.exprContributions mode apply important e).foldl Evaluated.merge out
  | .group _ members marked _, important, out => by
    rw [expr, Report.value_bind, exprContributions]
    exact value_exprs hregistry happly members (important || marked) out
  | .span _ _ none, _, _ => rfl
  | .span source variant (some child), important, out => by
    have hinner : (env.expr mode apply important child {}).value.WellKeyed :=
      wellKeyed_expr hregistry happly child important Evaluated.wellKeyed_empty
    rw [exprContributions, List.foldl_cons, List.foldl_nil, value_expr_span, value_expr_span]
    split
    · rename_i w hw
      rw [(hinner.wrapped (keepsKeys_of_wrapper? hregistry hw)).distinct.empty_merge]
    · rfl
  | .utility source head marked, important, out => by
    rw [exprContributions, List.foldl_cons, List.foldl_nil, expr, expr, Report.value_bind,
      Report.value_bind]
    split
    · rename_i found hfound
      exact emit_eq_merge _ _
        (wellKeyed_styleOf hregistry happly (wellKeyed_of_utilityOf hregistry hfound)) out
    · rfl
  | .property source value marked closed, important, out => by
    rw [exprContributions, List.foldl_cons, List.foldl_nil, expr, expr, Report.value_bind,
      Report.value_bind]
    split
    · exact emit_eq_merge _ _ (StyleTree.WellKeyed.scalar _ _) out
    · rfl

theorem value_exprs (hregistry : env.registry.WellKeyed)
    (happly : ∀ t, StyleTree.WellKeyed (apply t).value) : ∀ (es : List ClassList.Expr)
      (important : Bool) (out : Evaluated), (env.exprs mode apply important es out).value =
        (env.exprsContributions mode apply important es).foldl Evaluated.merge out
  | [], _, _ => rfl
  | e :: rest, important, out => by
    rw [exprs, Report.value_bind, exprsContributions, List.foldl_append,
      ← value_expr hregistry happly e important out]
    exact value_exprs hregistry happly rest important _

end

mutual

theorem wellKeyed_exprContributions (hregistry : env.registry.WellKeyed)
    (happly : ∀ t, StyleTree.WellKeyed (apply t).value) : ∀ (e : ClassList.Expr)
      (important : Bool), ∀ x ∈ env.exprContributions mode apply important e, x.WellKeyed
  | .group _ members marked _, important, x, hx =>
    wellKeyed_exprsContributions hregistry happly members (important || marked) x hx
  | .span .., important, x, hx => by
    rw [List.mem_singleton.mp hx]
    exact wellKeyed_expr hregistry happly _ important Evaluated.wellKeyed_empty
  | .utility .., important, x, hx => by
    rw [List.mem_singleton.mp hx]
    exact wellKeyed_expr hregistry happly _ important Evaluated.wellKeyed_empty
  | .property .., important, x, hx => by
    rw [List.mem_singleton.mp hx]
    exact wellKeyed_expr hregistry happly _ important Evaluated.wellKeyed_empty

theorem wellKeyed_exprsContributions (hregistry : env.registry.WellKeyed)
    (happly : ∀ t, StyleTree.WellKeyed (apply t).value) : ∀ (es : List ClassList.Expr)
      (important : Bool), ∀ x ∈ env.exprsContributions mode apply important es, x.WellKeyed
  | [], _, _, hx => absurd hx List.not_mem_nil
  | e :: rest, important, x, hx => by
    rcases List.mem_append.mp hx with hx | hx
    · exact wellKeyed_exprContributions hregistry happly e important x hx
    · exact wellKeyed_exprsContributions hregistry happly rest important x hx

end

/-- If what expressions add agrees, they add to any styles what they come to by themselves. -/
theorem value_exprs_of_agree (hregistry : env.registry.WellKeyed)
    (happly : ∀ t, StyleTree.WellKeyed (apply t).value) (important : Bool)
    (es : List ClassList.Expr)
    (hagree : (env.exprsContributions mode apply important es).Pairwise Evaluated.Agree)
    (out : Evaluated) :
    (env.exprs mode apply important es out).value =
      out.merge (env.exprs mode apply important es {}).value := by
  rw [value_exprs hregistry happly, value_exprs hregistry happly]
  exact Evaluated.foldl_merge (wellKeyed_exprsContributions hregistry happly es important) hagree
    out

/-! ## Notes -/

mutual

/-- The notes on an expression do not depend on the styles so far. -/
theorem sameNotes_expr : ∀ (e : ClassList.Expr) (important : Bool) (out out' : Evaluated),
    (env.expr mode apply important e out).SameNotes (env.expr mode apply important e out')
  | .group source members marked closed, important, out, out' => by
    rw [expr, expr]
    exact .bind _ fun _ => sameNotes_exprs members (important || marked) out out'
  | .span _ _ none, _, _, _ => ⟨rfl, rfl⟩
  | .span source variant (some child), important, out, out' =>
    ⟨by rw [diagnostics_expr_span, diagnostics_expr_span],
      by rw [torn_expr_span, torn_expr_span]⟩
  | .utility source head marked, important, out, out' => by
    rw [expr, expr]
    refine .bind _ fun _ => ?_
    split <;> exact ⟨rfl, rfl⟩
  | .property source value marked closed, important, out, out' => by
    rw [expr, expr]
    refine .bind _ fun _ => ?_
    split <;> exact ⟨rfl, rfl⟩

theorem sameNotes_exprs : ∀ (es : List ClassList.Expr) (important : Bool)
    (out out' : Evaluated),
    (env.exprs mode apply important es out).SameNotes (env.exprs mode apply important es out')
  | [], _, _, _ => ⟨rfl, rfl⟩
  | e :: rest, important, out, out' => by
    obtain ⟨hdiagnostics, htorn⟩ := sameNotes_expr e important out out'
    obtain ⟨hdiagnostics', htorn'⟩ := sameNotes_exprs rest important
      (env.expr mode apply important e out).value (env.expr mode apply important e out').value
    rw [exprs, exprs]
    exact ⟨by rw [Report.diagnostics_bind, Report.diagnostics_bind, hdiagnostics, hdiagnostics'],
      by rw [Report.torn_bind, Report.torn_bind, htorn, htorn']⟩

end

end Environment
end UtilityCss
