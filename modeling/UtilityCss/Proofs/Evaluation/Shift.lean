import UtilityCss.Proofs.ClassList.Shift
import UtilityCss.Proofs.Evaluation.Report

/-!
# Evaluating class lists that were moved

Names, values and modifiers are all that evaluation looks at.  Moving a class list moves
the slices of the notes that are taken on it and leaves everything else as it is.
-/

namespace UtilityCss

/-- The note further on by so many bytes. -/
def Diagnostic.shift (n : Nat) (d : Diagnostic) : Diagnostic := { d with slice := d.slice.shift n }

namespace Report

variable {α β : Type} (n : Nat)

/-- The report with its notes further on. -/
def shift (r : Report α) : Report α :=
  { r with diagnostics := r.diagnostics.map (Diagnostic.shift n) }

@[simp] theorem value_shift (r : Report α) : (r.shift n).value = r.value := rfl

@[simp] theorem torn_shift (r : Report α) : (r.shift n).torn = r.torn := rfl

@[simp] theorem diagnostics_shift (r : Report α) :
    (r.shift n).diagnostics = r.diagnostics.map (Diagnostic.shift n) := rfl

theorem shift_bind (r : Report α) (f : α → Report β) :
    (r >>= f).shift n = r.shift n >>= fun a => (f a).shift n := by
  ext : 1 <;> simp

/-- A report without notes stays where it is. -/
theorem shift_of_diagnostics_nil {r : Report α} (h : r.diagnostics = []) : r.shift n = r := by
  ext : 1 <;> simp [h]

theorem shift_noteIf (condition : Bool) (kind : DiagnosticKind) (slice : Slice) :
    (noteIf condition kind slice).shift n = noteIf condition kind (slice.shift n) := by
  cases condition <;> rfl

theorem shift_report (missing : DiagnosticKind) (slice : Slice) (failure : Failure) :
    (failure.report missing slice).shift n = failure.report missing (slice.shift n) := by
  cases failure <;> rfl

end Report

namespace Environment

open ClassList

variable {env : Environment} {n : Nat}

/-! ## Variants -/

theorem written_shift (head : Head) :
    (head.shift n).modifier.map Modifier.written = head.modifier.map Modifier.written := by
  rw [Head.modifier_shift, Option.map_map]
  rfl

theorem singleVariant_shift (v : ClassList.Variant) :
    env.singleVariant (v.shift n) = env.singleVariant v := by
  cases v with
  | named source head =>
    cases head with
    | plain name m => exact congrArg (env.variant name.text) (written_shift (.plain name m))
    | bracketed lead value m closed =>
      exact congrArg (env.bracketedVariant lead.text (Bracketed.value env.theme value.text))
        (written_shift (.bracketed lead value m closed))
  | selector => rfl
  | group => rfl

theorem resolved?_shift (v : ClassList.Variant) :
    env.resolved? (v.shift n) = (env.resolved? v).shift n := by
  rw [resolved?, resolved?, Report.shift_bind, Report.shift_noteIf, singleVariant_shift,
    Variant.closed_shift, Variant.source_shift]
  congr 1
  funext _
  split
  · rfl
  · rw [Report.shift_bind, Report.shift_report]
    rfl

mutual

theorem wrapper?_shift : ∀ v : ClassList.Variant,
    env.wrapper? (v.shift n) = (env.wrapper? v).shift n
  | .named source head => by
    rw [Variant.shift, wrapper?, wrapper?]
    exact resolved?_shift (.named source head)
  | .selector source inner => by
    rw [Variant.shift, wrapper?, wrapper?]
    exact resolved?_shift (.selector source inner)
  | .group _ members => by
    rw [Variant.shift, wrapper?, wrapper?, Report.shift_bind, membersWrappers?_shift members]
    rfl

theorem membersWrappers?_shift : ∀ members : List (List ClassList.Variant),
    env.membersWrappers? (membersShift n members) = (env.membersWrappers? members).shift n
  | [] => rfl
  | links :: rest => by
    rw [membersShift, membersWrappers?, membersWrappers?, Report.shift_bind,
      chainWrapper?_shift links]
    congr 1
    funext member
    rw [Report.shift_bind, membersWrappers?_shift rest]
    rfl

theorem chainWrapper?_shift : ∀ links : List ClassList.Variant,
    env.chainWrapper? (chainShift n links) = (env.chainWrapper? links).shift n
  | [] => rfl
  | v :: rest => by
    rw [chainShift, chainWrapper?, chainWrapper?, Report.shift_bind, wrapper?_shift v]
    congr 1
    funext outer
    rw [Report.shift_bind, chainWrapper?_shift rest]
    rfl

end

/-! ## Style trees -/

section

variable {apply : Text → Report StyleTree}

mutual

/-- Expanding directives takes no notes if applying class lists does not. -/
theorem diagnostics_expandEntries (happly : ∀ t, (apply t).diagnostics = []) :
    ∀ (entries : List (Text × StyleValue)) (out : StyleTree),
      (Directive.expandEntries env apply entries out).diagnostics = []
  | [], _ => rfl
  | (key, value) :: rest, out => by
    rw [Directive.expandEntries, Report.diagnostics_bind, diagnostics_expandEntry happly key value,
      diagnostics_expandEntries happly rest]
    rfl

theorem diagnostics_expandEntry (happly : ∀ t, (apply t).diagnostics = []) (key : Text) :
    ∀ (value : StyleValue) (out : StyleTree),
      (Directive.expandEntry env apply key value out).diagnostics = []
  | .scalar _, _ => by
    rw [Directive.expandEntry]
    split
    · simp [happly]
    · split <;> rfl
  | .list _, _ => by
    rw [Directive.expandEntry]
    split
    · simp [happly]
    · split <;> rfl
  | .tree body, _ => by
    rw [Directive.expandEntry]
    split
    · simp [happly]
    · dsimp only
      -- the body is expanded only if it needs to be, and is then put where it stands
      split
      · rw [Report.diagnostics_bind, diagnostics_expandEntries happly body []]
        split
        · rfl
        · split <;> rfl
      · rw [pure_bind]
        split
        · rfl
        · split <;> rfl

end

theorem diagnostics_styleOf (happly : ∀ t, (apply t).diagnostics = []) (found : ResolvedUtility) :
    (env.styleOf apply found).diagnostics = [] := by
  unfold styleOf Directive.expand
  split
  · rfl
  · split
    · exact diagnostics_expandEntries happly _ _
    · rfl

end

/-- Applying a class list is silent. -/
theorem diagnostics_applyWithin (levels : Nat) (classes : Text) :
    (env.applyWithin levels classes).diagnostics = [] := by
  cases levels with
  | zero => rfl
  | succ levels => simp [applyWithin, Report.silent]

/-! ## Expressions -/

theorem utilityOf_shift (head : Head) : env.utilityOf (head.shift n) = env.utilityOf head := by
  cases head with
  | plain name m => exact congrArg (env.utility name.text) (written_shift (.plain name m))
  | bracketed lead value m closed =>
    exact congrArg (env.bracketedUtility lead.text (Bracketed.value env.theme value.text))
      (written_shift (.bracketed lead value m closed))

section

variable {mode : Mode} {apply : Text → Report StyleTree}

mutual

/-- Evaluating an expression that was moved gives the same styles. -/
theorem expr_shift (happly : ∀ t, (apply t).diagnostics = []) :
    ∀ (e : ClassList.Expr) (important : Bool) (out : Evaluated),
      env.expr mode apply important (e.shift n) out =
        (env.expr mode apply important e out).shift n
  | .group source members marked closed, important, out => by
    rw [Expr.shift, expr, expr, Report.shift_bind, Report.shift_noteIf]
    congr 1
    funext _
    exact exprs_shift happly members (important || marked) out
  | .span source variant none, important, out => by
    rw [Expr.shift, expr, expr, Report.shift_bind, wrapper?_shift]
    rfl
  | .span source variant (some child), important, out => by
    rw [Expr.shift, expr, expr, Report.shift_bind, wrapper?_shift]
    congr 1
    funext wrapper
    rw [Report.shift_bind, expr_shift happly child important {}]
    congr 1
    funext inner
    cases wrapper <;> rfl
  | .utility source head marked, important, out => by
    rw [Expr.shift, expr, expr, Report.shift_bind, Report.shift_noteIf, Head.closed_shift,
      utilityOf_shift]
    congr 1
    funext _
    split
    · rename_i found _
      have hstyle : (env.styleOf apply found).shift n = env.styleOf apply found :=
        Report.shift_of_diagnostics_nil n (diagnostics_styleOf happly found)
      rw [Report.shift_bind, hstyle]
      rfl
    · rw [Report.shift_bind, Report.shift_report]
      rfl
  | .property source value marked closed, important, out => by
    rw [Expr.shift, expr, expr, Report.shift_bind, Report.shift_noteIf, Slice.text_shift]
    congr 1
    funext _
    split <;> rfl

theorem exprs_shift (happly : ∀ t, (apply t).diagnostics = []) :
    ∀ (es : List ClassList.Expr) (important : Bool) (out : Evaluated),
      env.exprs mode apply important (exprsShift n es) out =
        (env.exprs mode apply important es out).shift n
  | [], _, _ => rfl
  | e :: rest, important, out => by
    rw [exprsShift, exprs, exprs, Report.shift_bind, expr_shift happly e important out]
    congr 1
    funext out'
    exact exprs_shift happly rest important out'

end

end

end Environment
end UtilityCss
