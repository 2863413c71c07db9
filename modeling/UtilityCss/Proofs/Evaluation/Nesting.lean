import UtilityCss.Evaluation.Basic
import UtilityCss.Proofs.Evaluation.Directive

/-!
# How deep class lists are applied inside each other

What is applied while a class list is evaluated can be listed without evaluating it: the
utilities of the class list decide which static trees are expanded, and the trees which class
lists those apply.  So evaluation asks nothing of the way in which class lists are applied but
the styles of the listed ones, and a class list in which they nest so many levels deep has the
same styles with that many levels left as with more.
-/

namespace UtilityCss

/-- The class lists that are applied when the tree of a resolved utility is expanded. -/
def ResolvedUtility.applications (found : ResolvedUtility) : List Text :=
  if found.spec.isLookup then [] else Directive.applications found.tree

namespace Environment

variable (env : Environment)

mutual

/-- The class lists that are applied when an expression is evaluated. -/
def exprApplications : ClassList.Expr → List Text
  | .group _ members _ _ => exprsApplications members
  | .span _ _ none => []
  | .span _ _ (some child) => exprApplications child
  | .utility _ head _ =>
    match env.utilityOf head with
    | .ok found => found.applications
    | .error _ => []
  | .property .. => []

/-- The class lists that are applied when expressions are evaluated. -/
def exprsApplications : List ClassList.Expr → List Text
  | [] => []
  | e :: rest => exprApplications e ++ exprsApplications rest

end

/-- The class lists that are applied when a class list is evaluated, as they are written. -/
def applications (input : Text) : List Text :=
  env.exprsApplications (ClassList.read env.separator input).exprs

/-- Class lists are applied at most so many levels deep when the class list is evaluated. -/
def NestsWithin : Nat → Text → Prop
  | 0, input => env.applications input = []
  | levels + 1, input => ∀ t ∈ env.applications input, NestsWithin levels (splitImportant t).1

/-- Whether they are can be found out level by level. -/
def decidableNestsWithin : ∀ (levels : Nat) (input : Text), Decidable (env.NestsWithin levels input)
  | 0, input => inferInstanceAs (Decidable (env.applications input = []))
  | levels + 1, input =>
    have : ∀ t, Decidable (env.NestsWithin levels (splitImportant t).1) := fun t =>
      decidableNestsWithin levels (splitImportant t).1
    inferInstanceAs (Decidable (∀ t ∈ env.applications input, _))

instance (levels : Nat) (input : Text) : Decidable (env.NestsWithin levels input) :=
  env.decidableNestsWithin levels input

variable {env : Environment} {mode mode' : Mode} {apply apply' : Text → Report StyleTree}

theorem styleOf_congr {found : ResolvedUtility}
    (h : ∀ t ∈ found.applications, apply t = apply' t) :
    env.styleOf apply found = env.styleOf apply' found := by
  unfold ResolvedUtility.applications at h
  unfold styleOf
  split
  · rfl
  · rename_i hstatic
    rw [if_neg hstatic] at h
    unfold Directive.expand
    rw [Directive.expandEntries_congr rfl (fun _ => rfl) found.tree [] h]

/-- In both modes the style of a utility is added alike. -/
def AddsAlike (env : Environment) (mode mode' : Mode) : Prop :=
  ∀ flags marked tree out,
    env.emit mode flags marked tree out = env.emit mode' flags marked tree out

mutual

theorem expr_congr (hemit : env.AddsAlike mode mode') : ∀ (e : ClassList.Expr) (important : Bool)
    (out : Evaluated), (∀ t ∈ env.exprApplications e, apply t = apply' t) →
      env.expr mode apply important e out = env.expr mode' apply' important e out
  | .group source members marked closed, important, out, h => by
    rw [expr, expr, exprs_congr hemit members (important || marked) out h]
  | .span source variant none, important, out, _ => by rw [expr, expr]
  | .span source variant (some child), important, out, h => by
    rw [expr, expr, expr_congr hemit child important {} h]
  | .utility source head marked, important, out, h => by
    rw [exprApplications] at h
    rw [expr, expr]
    cases hfound : env.utilityOf head with
    | error failure => rfl
    | ok found =>
      rw [hfound] at h
      dsimp only
      rw [styleOf_congr h]
      simp only [hemit found.spec.flags (important || marked)]
  | .property source value marked closed, important, out, _ => by
    rw [expr, expr]
    simp only [hemit .standard (important || marked)]

/-- Evaluation asks nothing of the mode but how styles are added, and nothing of the way in
which class lists are applied but the styles of those that are. -/
theorem exprs_congr (hemit : env.AddsAlike mode mode') : ∀ (es : List ClassList.Expr)
    (important : Bool) (out : Evaluated),
    (∀ t ∈ env.exprsApplications es, apply t = apply' t) →
      env.exprs mode apply important es out = env.exprs mode' apply' important es out
  | [], _, _, _ => by rw [exprs, exprs]
  | e :: rest, important, out, h => by
    rw [exprsApplications] at h
    have hfirst := expr_congr hemit e important out fun t ht => h t (List.mem_append_left _ ht)
    have hrest := fun out => exprs_congr hemit rest important out fun t ht =>
      h t (List.mem_append_right _ ht)
    rw [exprs, exprs, hfirst]
    exact bind_congr hrest

end

theorem applyWithin_succ (levels : Nat) (classes : Text) :
    env.applyWithin (levels + 1) classes = (do
      let result ← (env.evaluateIn .applied (env.applyWithin levels)
        (splitImportant classes).1).silent
      return if (splitImportant classes).2 then StyleTree.important result.tree else result.tree) :=
  rfl

/-- With enough levels left their number does not matter. -/
theorem applyWithin_congr : ∀ {levels : Nat} {input : Text}, env.NestsWithin levels input →
    ∀ {a b : Nat}, levels ≤ a → levels ≤ b → ∀ t ∈ env.applications input,
      env.applyWithin a t = env.applyWithin b t
  | 0, _, h, _, _, _, _, t, ht => by
    rw [NestsWithin] at h
    rw [h] at ht
    exact absurd ht List.not_mem_nil
  | levels + 1, input, h, a, b, ha, hb, t, ht => by
    obtain ⟨a, rfl⟩ : ∃ n, a = n + 1 := ⟨a - 1, by omega⟩
    obtain ⟨b, rfl⟩ : ∃ n, b = n + 1 := ⟨b - 1, by omega⟩
    have hbelow := applyWithin_congr (h t ht) (Nat.le_of_succ_le_succ ha)
      (Nat.le_of_succ_le_succ hb)
    have heval : env.evaluateIn .applied (env.applyWithin a) (splitImportant t).1 =
        env.evaluateIn .applied (env.applyWithin b) (splitImportant t).1 :=
      exprs_congr (fun _ _ _ _ => rfl) _ false {} hbelow
    rw [applyWithin_succ, applyWithin_succ, heval]

/-- A class list in which class lists nest so many levels deep is evaluated as with more levels
left; the mode does not matter where no selector is configured for importance. -/
theorem evaluateIn_congr {levels : Nat} {input : Text} (h : env.NestsWithin levels input)
    {a b : Nat} (ha : levels ≤ a) (hb : levels ≤ b) {on : Bool}
    (himportant : env.settings.important = .all on) :
    env.evaluateIn mode (env.applyWithin a) input =
      env.evaluateIn mode' (env.applyWithin b) input := by
  refine exprs_congr (fun flags marked tree out => ?_) _ false {} (applyWithin_congr h ha hb)
  unfold emit
  rw [himportant]

end Environment
end UtilityCss
