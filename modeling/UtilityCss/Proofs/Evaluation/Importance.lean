import UtilityCss.Proofs.Evaluation.Contribution

/-!
# Styles that are marked important

Where a selector is configured for importance, evaluation carries two trees along, and the
mark of a utility says to which of them its style is added.  Nothing goes from one tree to
the other: what is left of a class list without the marked utilities has the same tree, and
what is left of it without the unmarked ones has the same important tree.  The marks do
nothing else.  Without them what was marked has as its tree what was its important tree.

Inside a style tree that applies a class list there is no second tree, and marks are written
into the values.
-/

namespace UtilityCss

namespace ClassList

/-! ## Class lists without their marked or their unmarked utilities -/

mutual

/-- What is left of an expression when only its important utilities are kept, or only the
others; `marked` says if it is inside of a group that is marked important.  Properties count
as utilities.  A group stays with nothing in it, and a variant with nothing behind it. -/
def Expr.keep (kept marked : Bool) : Expr → Option Expr
  | .group source members important closed =>
    some (.group source (exprsKeep kept (marked || important) members) important closed)
  | .span source variant none => some (.span source variant none)
  | .span source variant (some child) => some (.span source variant (child.keep kept marked))
  | .utility source head important =>
    if (marked || important) = kept then some (.utility source head important) else none
  | .property source value important closed =>
    if (marked || important) = kept then some (.property source value important closed) else none

/-- What is left of expressions when only the important utilities are kept, or only the
others. -/
def exprsKeep (kept marked : Bool) : List Expr → List Expr
  | [] => []
  | e :: rest => (e.keep kept marked).toList ++ exprsKeep kept marked rest

end

mutual

/-- The expression without marks of importance. -/
def Expr.unmark : Expr → Expr
  | .group source members _ closed => .group source (exprsUnmark members) false closed
  | .span source variant none => .span source variant none
  | .span source variant (some child) => .span source variant (some child.unmark)
  | .utility source head _ => .utility source head false
  | .property source value _ closed => .property source value false closed

/-- The expressions without marks of importance. -/
def exprsUnmark : List Expr → List Expr
  | [] => []
  | e :: rest => e.unmark :: exprsUnmark rest

end

@[simp] theorem exprsUnmark_append (es more : List Expr) :
    exprsUnmark (es ++ more) = exprsUnmark es ++ exprsUnmark more := by
  induction es with
  | nil => rfl
  | cons e rest ih => rw [List.cons_append, exprsUnmark, exprsUnmark, ih, List.cons_append]

theorem exprsUnmark_toList (e : Option Expr) :
    exprsUnmark e.toList = (e.map Expr.unmark).toList := by
  cases e <;> rfl

theorem exprsKeep_append (kept marked : Bool) (es more : List Expr) :
    exprsKeep kept marked (es ++ more) = exprsKeep kept marked es ++ exprsKeep kept marked more := by
  induction es with
  | nil => rfl
  | cons e rest ih => rw [List.cons_append, exprsKeep, exprsKeep, ih, List.append_assoc]

theorem exprsKeep_toList (kept marked : Bool) (e : Option Expr) :
    exprsKeep kept marked e.toList = (e.bind (Expr.keep kept marked)).toList := by
  cases e with
  | none => rfl
  | some e => exact List.append_nil _

mutual

/-- What was kept is kept. -/
theorem Expr.keep_keep (kept : Bool) : ∀ (marked : Bool) (e : Expr),
    (e.keep kept marked).bind (Expr.keep kept marked) = e.keep kept marked
  | marked, .group source members important closed => by
    rw [Expr.keep, Option.bind_some, Expr.keep, exprsKeep_exprsKeep kept _ members]
  | _, .span source variant none => rfl
  | marked, .span source variant (some child) => by
    have ih := Expr.keep_keep kept marked child
    rw [Expr.keep, Option.bind_some]
    cases hchild : child.keep kept marked with
    | none => rfl
    | some child' =>
      rw [hchild, Option.bind_some] at ih
      rw [Expr.keep, ih]
  | marked, .utility source head important => by
    rw [Expr.keep]
    split
    · rename_i hkept
      rw [Option.bind_some, Expr.keep, if_pos hkept]
    · rfl
  | marked, .property source value important closed => by
    rw [Expr.keep]
    split
    · rename_i hkept
      rw [Option.bind_some, Expr.keep, if_pos hkept]
    · rfl

theorem exprsKeep_exprsKeep (kept : Bool) : ∀ (marked : Bool) (es : List Expr),
    exprsKeep kept marked (exprsKeep kept marked es) = exprsKeep kept marked es
  | _, [] => rfl
  | marked, e :: rest => by
    rw [exprsKeep, exprsKeep_append, exprsKeep_toList, Expr.keep_keep kept marked e,
      exprsKeep_exprsKeep kept marked rest]

end

mutual

/-- Without marks nothing is important. -/
theorem Expr.unmark_keep_unmark : ∀ e : Expr,
    (e.unmark.keep false false).map Expr.unmark = some e.unmark
  | .group source members important closed => by
    rw [Expr.unmark, Expr.keep, Option.map_some, Expr.unmark, Bool.or_false,
      exprsUnmark_exprsKeep_exprsUnmark members]
  | .span source variant none => rfl
  | .span source variant (some child) => by
    obtain ⟨child', hchild, hunmark⟩ := Option.map_eq_some_iff.mp (Expr.unmark_keep_unmark child)
    rw [Expr.unmark, Expr.keep, hchild, Option.map_some, Expr.unmark, hunmark]
  | .utility .. => rfl
  | .property .. => rfl

theorem exprsUnmark_exprsKeep_exprsUnmark : ∀ es : List Expr,
    exprsUnmark (exprsKeep false false (exprsUnmark es)) = exprsUnmark es
  | [] => rfl
  | e :: rest => by
    rw [exprsUnmark, exprsKeep, exprsUnmark_append, exprsUnmark_toList, Expr.unmark_keep_unmark e,
      exprsUnmark_exprsKeep_exprsUnmark rest]
    rfl

end

end ClassList

/-! ## The two trees -/

namespace Evaluated

/-- The tree of what was marked important, or the other one. -/
def part (kept : Bool) (e : Evaluated) : StyleTree := if kept then e.important else e.tree

@[simp] theorem part_mk_false (tree important : StyleTree) :
    part false ⟨tree, important⟩ = tree := rfl

@[simp] theorem part_mk_true (tree important : StyleTree) :
    part true ⟨tree, important⟩ = important := rfl

@[simp] theorem part_merge (kept : Bool) (e f : Evaluated) :
    (e.merge f).part kept = StyleTree.merge (e.part kept) (f.part kept) := by
  cases kept <;> rfl

@[simp] theorem part_wrapped (kept : Bool) (e : Evaluated) (w : Wrapper) :
    (e.wrapped w).part kept = w.apply (e.part kept) := by
  cases kept <;> rfl

end Evaluated

/-- What is noted in the first report is noted in the second one too, and if the first one is
torn, so is the second one. -/
def Report.FewerNotes {α : Type} (r s : Report α) : Prop :=
  r.diagnostics.Sublist s.diagnostics ∧ (r.torn = true → s.torn = true)

namespace Report.FewerNotes

variable {α β : Type}

theorem of_same {r s : Report α} (h : r.SameNotes s) : r.FewerNotes s :=
  ⟨h.1 ▸ List.Sublist.refl _, fun htorn => h.2 ▸ htorn⟩

protected theorem pure (a : α) (s : Report α) : (Pure.pure a : Report α).FewerNotes s :=
  ⟨List.nil_sublist _, fun htorn => absurd htorn Bool.false_ne_true⟩

theorem bind (r : Report α) {s s' : Report β} (h : s.FewerNotes s') :
    (r >>= fun _ => s).FewerNotes (r >>= fun _ => s') :=
  ⟨h.1.append_left _, fun htorn => by
    rw [torn_bind, Bool.or_eq_true] at htorn ⊢
    exact htorn.imp_right h.2⟩

end Report.FewerNotes

namespace Environment

open ClassList

variable {env : Environment} (mode : Mode) (apply : Text → Report StyleTree) {selector : Text}

/-- What is marked important is added to the important tree, everything else to the other one. -/
theorem part_emit_direct (hselector : env.settings.important = .selector selector)
    (flags : Flags) (kept marked : Bool) (tree : StyleTree) (out : Evaluated) :
    (env.emit .direct flags marked tree out).part kept =
      if marked = kept then StyleTree.merge (out.part kept) tree else out.part kept := by
  unfold emit
  rw [hselector]
  cases marked <;> cases kept <;> rfl

/-- A style that is kept is added to its tree as a style without a mark is added. -/
theorem emit_kept (hselector : env.settings.important = .selector selector) (flags : Flags)
    {kept marked : Bool} (hkept : marked = kept) (tree other : StyleTree) (out : Evaluated) :
    env.emit .direct flags (false || false) tree ⟨out.part kept, other⟩ =
      ⟨(env.emit .direct flags marked tree out).part kept, other⟩ := by
  rw [part_emit_direct hselector, if_pos hkept, Bool.or_false]
  unfold emit
  rw [hselector]
  rfl

/-- A style that is not kept is added to the other tree. -/
theorem part_emit_of_ne (hselector : env.settings.important = .selector selector) (flags : Flags)
    {kept marked : Bool} (hkept : marked ≠ kept) (tree : StyleTree) (out : Evaluated) :
    (env.emit .direct flags marked tree out).part kept = out.part kept := by
  rw [part_emit_direct hselector, if_neg hkept]

mutual

/-- What is kept of an expression and has its marks taken off adds to the tree what the
expression adds to the important tree, if what is important was kept, and to the tree
otherwise. -/
theorem value_unmark_keep (hselector : env.settings.important = .selector selector)
    (kept : Bool) : ∀ (e : ClassList.Expr) (marked : Bool) (out : Evaluated) (other : StyleTree),
      (env.exprs .direct apply false (exprsUnmark (e.keep kept marked).toList)
          ⟨out.part kept, other⟩).value =
        ⟨(env.expr .direct apply marked e out).value.part kept, other⟩
  | .group source members important closed, marked, out, other => by
    rw [Expr.keep, Option.toList_some, exprsUnmark, exprsUnmark, exprs_singleton, Expr.unmark,
      expr, expr]
    exact value_exprsUnmark_exprsKeep hselector kept members (marked || important) out other
  | .span source variant none, marked, out, other => rfl
  | .span source variant (some child), marked, out, other => by
    have ih := value_unmark_keep hselector kept child marked {} []
    have hnothing : ({} : Evaluated).part kept = [] := by cases kept <;> rfl
    rw [hnothing] at ih
    rw [Expr.keep, Option.toList_some, exprsUnmark, exprsUnmark, exprs_singleton, value_expr_span]
    cases hchild : child.keep kept marked with
    | none =>
      -- nothing was kept of the child, so it adds nothing to this tree, wrapped or not
      rw [hchild] at ih
      have hempty : (env.expr .direct apply marked child {}).value.part kept = [] :=
        congrArg Evaluated.tree ih.symm
      rw [Expr.unmark, expr, Report.value_bind]
      cases (env.wrapper? variant).value with
      | none => rfl
      | some w =>
        rw [Evaluated.part_merge, Evaluated.part_wrapped, hempty]
        rfl
    | some child' =>
      rw [hchild, Option.toList_some, exprsUnmark, exprsUnmark, exprs_singleton] at ih
      rw [Expr.unmark, value_expr_span, ih]
      cases (env.wrapper? variant).value with
      | none => rfl
      | some w =>
        rw [Evaluated.part_merge, Evaluated.part_wrapped]
        rfl
  | .utility source head important, marked, out, other => by
    rw [Expr.keep, expr, Report.value_bind]
    by_cases hkept : (marked || important) = kept
    · rw [if_pos hkept, Option.toList_some, exprsUnmark, exprsUnmark, exprs_singleton,
        Expr.unmark, expr, Report.value_bind]
      cases env.utilityOf head with
      | error failure => rfl
      | ok found =>
        exact emit_kept hselector _ hkept _ _ _
    · rw [if_neg hkept]
      cases env.utilityOf head with
      | error failure => rfl
      | ok found =>
        exact congrArg (Evaluated.mk · other) (part_emit_of_ne hselector _ hkept _ _).symm
  | .property source value important closed, marked, out, other => by
    rw [Expr.keep, expr, Report.value_bind]
    by_cases hkept : (marked || important) = kept
    · rw [if_pos hkept, Option.toList_some, exprsUnmark, exprsUnmark, exprs_singleton,
        Expr.unmark, expr, Report.value_bind]
      cases Bracketed.declaration? value.text with
      | none => rfl
      | some declaration =>
        exact emit_kept hselector _ hkept _ _ _
    · rw [if_neg hkept]
      cases Bracketed.declaration? value.text with
      | none => rfl
      | some declaration =>
        exact congrArg (Evaluated.mk · other) (part_emit_of_ne hselector _ hkept _ _).symm

theorem value_exprsUnmark_exprsKeep (hselector : env.settings.important = .selector selector)
    (kept : Bool) : ∀ (es : List ClassList.Expr) (marked : Bool) (out : Evaluated)
      (other : StyleTree),
      (env.exprs .direct apply false (exprsUnmark (exprsKeep kept marked es))
          ⟨out.part kept, other⟩).value =
        ⟨(env.exprs .direct apply marked es out).value.part kept, other⟩
  | [], _, _, _ => rfl
  | e :: rest, marked, out, other => by
    rw [exprsKeep, exprsUnmark_append, exprs_append, Report.value_bind,
      value_unmark_keep hselector kept e marked out other,
      value_exprsUnmark_exprsKeep hselector kept rest marked _ other, exprs, Report.value_bind]

end

/-- The important tree depends on the important utilities only, and the other tree on the other
utilities. -/
theorem part_exprsKeep (hselector : env.settings.important = .selector selector)
    (kept marked : Bool) (es : List ClassList.Expr) (out : Evaluated) :
    (env.exprs .direct apply marked (exprsKeep kept marked es) out).value.part kept =
      (env.exprs .direct apply marked es out).value.part kept := by
  have hkept := value_exprsUnmark_exprsKeep apply hselector kept
    (exprsKeep kept marked es) marked out []
  rw [exprsKeep_exprsKeep, value_exprsUnmark_exprsKeep apply hselector kept es marked out []] at hkept
  exact congrArg Evaluated.tree hkept.symm

/-- Without marks nothing is added to the important tree. -/
theorem important_exprsUnmark (hselector : env.settings.important = .selector selector)
    (es : List ClassList.Expr) (out : Evaluated) :
    (env.exprs .direct apply false (exprsUnmark es) out).value.important = out.important := by
  have hkept := value_exprsUnmark_exprsKeep apply hselector false (exprsUnmark es)
    false out out.important
  rw [exprsUnmark_exprsKeep_exprsUnmark] at hkept
  have himportant := congrArg Evaluated.important hkept
  exact himportant

/-! ## Applied class lists -/

theorem important_emit_applied (flags : Flags) (marked : Bool) (tree : StyleTree)
    (out : Evaluated) : (env.emit .applied flags marked tree out).important = out.important := by
  unfold emit
  cases env.settings.important <;> cases marked <;> rfl

mutual

/-- In a class list that is applied nothing is added to the important tree. -/
theorem important_expr_applied : ∀ (e : ClassList.Expr) (marked : Bool) (out : Evaluated),
    (env.expr .applied apply marked e out).value.important = out.important
  | .group source members important closed, marked, out => by
    rw [expr]
    exact important_exprs_applied members (marked || important) out
  | .span source variant none, _, _ => rfl
  | .span source variant (some child), marked, out => by
    rw [value_expr_span]
    cases (env.wrapper? variant).value with
    | none => rfl
    | some w =>
      show StyleTree.merge out.important (w.apply _) = out.important
      rw [important_expr_applied child marked {}]
      rfl
  | .utility source head important, marked, out => by
    rw [expr, Report.value_bind]
    cases env.utilityOf head with
    | error failure => rfl
    | ok found => exact important_emit_applied _ _ _ _
  | .property source value important closed, marked, out => by
    rw [expr, Report.value_bind]
    cases Bracketed.declaration? value.text with
    | none => rfl
    | some declaration => exact important_emit_applied _ _ _ _

theorem important_exprs_applied : ∀ (es : List ClassList.Expr) (marked : Bool) (out : Evaluated),
    (env.exprs .applied apply marked es out).value.important = out.important
  | [], _, _ => rfl
  | e :: rest, marked, out => by
    rw [exprs, Report.value_bind, important_exprs_applied rest,
      important_expr_applied e marked out]

end

/-! ## Notes -/

mutual

/-- On what is kept no other notes are taken. -/
theorem fewerNotes_keep (kept : Bool) : ∀ (e : ClassList.Expr) (marked : Bool)
    (out out' : Evaluated),
    (env.exprs mode apply marked (e.keep kept marked).toList out).FewerNotes
      (env.expr mode apply marked e out')
  | .group source members important closed, marked, out, out' => by
    rw [Expr.keep, Option.toList_some, exprs_singleton, expr, expr]
    exact .bind _ (fewerNotes_exprsKeep kept members (marked || important) out out')
  | .span source variant none, marked, out, out' => by
    rw [Expr.keep, Option.toList_some, exprs_singleton]
    exact .of_same (sameNotes_expr _ marked out out')
  | .span source variant (some child), marked, out, out' => by
    have ih := fewerNotes_keep kept child marked {} {}
    rw [Expr.keep, Option.toList_some, exprs_singleton]
    cases hchild : child.keep kept marked with
    | none =>
      constructor
      · rw [diagnostics_expr_span, expr, Report.diagnostics_bind, Report.diagnostics_pure]
        exact (List.nil_sublist _).append_left _
      · intro htorn
        rw [expr, Report.torn_bind, Report.torn_pure, Bool.or_false] at htorn
        rw [torn_expr_span, htorn, Bool.true_or]
    | some child' =>
      rw [hchild, Option.toList_some, exprs_singleton] at ih
      constructor
      · rw [diagnostics_expr_span, diagnostics_expr_span]
        exact ih.1.append_left _
      · rw [torn_expr_span, torn_expr_span, Bool.or_eq_true, Bool.or_eq_true]
        exact Or.imp_right ih.2
  | .utility source head important, marked, out, out' => by
    rw [Expr.keep]
    split
    · rw [Option.toList_some, exprs_singleton]
      exact .of_same (sameNotes_expr _ marked out out')
    · exact .pure _ _
  | .property source value important closed, marked, out, out' => by
    rw [Expr.keep]
    split
    · rw [Option.toList_some, exprs_singleton]
      exact .of_same (sameNotes_expr _ marked out out')
    · exact .pure _ _

theorem fewerNotes_exprsKeep (kept : Bool) : ∀ (es : List ClassList.Expr)
    (marked : Bool) (out out' : Evaluated),
    (env.exprs mode apply marked (exprsKeep kept marked es) out).FewerNotes
      (env.exprs mode apply marked es out')
  | [], _, _, _ => .pure _ _
  | e :: rest, marked, out, out' => by
    obtain ⟨hfirst, htorn⟩ := fewerNotes_keep kept e marked out out'
    rw [exprsKeep, exprs_append, exprs]
    obtain ⟨hrest, htorn'⟩ := fewerNotes_exprsKeep kept rest marked
      (env.exprs mode apply marked (e.keep kept marked).toList out).value
      (env.expr mode apply marked e out').value
    constructor
    · rw [Report.diagnostics_bind, Report.diagnostics_bind]
      exact hfirst.append hrest
    · rw [Report.torn_bind, Report.torn_bind, Bool.or_eq_true, Bool.or_eq_true]
      exact Or.imp htorn htorn'

end

end Environment
end UtilityCss
