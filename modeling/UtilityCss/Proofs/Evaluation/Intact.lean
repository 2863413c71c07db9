import UtilityCss.Proofs.Evaluation.Expansion
import UtilityCss.Proofs.Evaluation.Fault
import UtilityCss.Proofs.Evaluation.Nesting

/-!
# Class lists without torn names

A name is torn if its modifier cannot be taken off, and only the modifier of a plain name can be
left open.  So where none is, in a class list and in those that are applied for it, evaluation
never comes upon a torn name, whatever is registered.  The class lists that are applied are
followed just as deep as they are evaluated: what is applied past the limit is not even read.
-/

namespace UtilityCss

open ClassList

/-- Is it a plain name with a modifier that is left open? -/
def ClassList.Head.isOpen : Head → Bool
  | .plain _ (some m) => !m.closed
  | _ => false

/-- No plain name in the class list has a modifier that is left open. -/
def ClassList.Program.Shut (p : Program) : Prop :=
  ∀ n ∈ p.listing, ∀ head ∈ n.shape.head?, head.isOpen = false

instance (p : Program) : Decidable p.Shut :=
  inferInstanceAs (Decidable (∀ n ∈ p.listing, ∀ head ∈ n.shape.head?, head.isOpen = false))

namespace Environment

/-- No plain name has a modifier that is left open, in the class list or in those that are applied
for it, so many levels deep. -/
def Intact (env : Environment) : Nat → Text → Prop
  | 0, input => (read env.separator input).Shut
  | levels + 1, input => (read env.separator input).Shut ∧
      ∀ t ∈ env.applications input, Intact env levels (splitImportant t).1

/-- Whether there is none can be found out level by level. -/
def decidableIntact (env : Environment) :
    ∀ (levels : Nat) (input : Text), Decidable (env.Intact levels input)
  | 0, input => inferInstanceAs (Decidable (read env.separator input).Shut)
  | levels + 1, input =>
    have : ∀ t, Decidable (env.Intact levels (splitImportant t).1) := fun t =>
      decidableIntact env levels (splitImportant t).1
    inferInstanceAs (Decidable ((read env.separator input).Shut ∧ ∀ t ∈ env.applications input, _))

instance (env : Environment) (levels : Nat) (input : Text) : Decidable (env.Intact levels input) :=
  env.decidableIntact levels input

variable {env : Environment} {mode : Mode} {apply : Text → Report StyleTree}

/-! ## Style trees -/

mutual

/-- Where no class list that is applied holds a torn name, none is found in an entry. -/
theorem tears_entry (happly : ∀ t, (apply t).torn = false) (key : Text) :
    ∀ value : StyleValue, Directive.tears env apply key value = false
  | .scalar text => by
    cases h : Directive.applied? key (.scalar text) with
    | some classes => rw [Directive.tears_of_applied h, happly]
    | none => exact Directive.tears_declaration h rfl
  | .list items => by
    cases h : Directive.applied? key (.list items) with
    | some classes => rw [Directive.tears_of_applied h, happly]
    | none => exact Directive.tears_declaration h rfl
  | .tree body => by
    cases h : Directive.applied? key (.tree body) with
    | some classes => rw [Directive.tears_of_applied h, happly]
    | none => rw [Directive.tears_tree h, tears_entries happly body]

theorem tears_entries (happly : ∀ t, (apply t).torn = false) :
    ∀ entries : List (Text × StyleValue),
      (entries.any fun e => Directive.tears env apply e.1 e.2) = false
  | [] => rfl
  | (key, value) :: rest => by
    rw [List.any_cons, tears_entry happly key value, tears_entries happly rest]
    rfl

end

theorem torn_styleOf (happly : ∀ t, (apply t).torn = false) (found : ResolvedUtility) :
    (env.styleOf apply found).torn = false := by
  unfold styleOf
  split
  · rfl
  · rw [Directive.torn_expand, tears_entries happly]

/-! ## Class lists -/

/-- A name whose modifier is not left open is not torn. -/
theorem utilityOf_ne_torn_of_shut {head : Head} {start : Nat} {t after : Text}
    (hlaid : head.Laid start t after) (hopen : head.isOpen = false) :
    env.utilityOf head ≠ .error .torn := by
  cases head with
  | bracketed lead value m closed => exact bracketedUtility_ne_torn _ _ _
  | plain name m =>
    refine utilityOf_ne_torn hlaid ?_
    cases m with
    | none => rfl
    | some m =>
      have hclosed : m.closed = true := Bool.not_eq_false' .. |>.mp hopen
      rw [Head.closed, Head.modifier, Option.all_some, hclosed]
      rfl

/-- The evaluation of a class list comes upon a torn name only in it or in one that is applied. -/
theorem torn_evaluateIn {input : Text} (hshut : (read env.separator input).Shut)
    (happly : ∀ t ∈ env.applications input, (apply t).torn = false) :
    (env.evaluateIn mode apply input).torn = false := by
  -- how other class lists are applied does not matter
  have hmended : env.evaluateIn mode apply input =
      env.evaluateIn mode (fun t => { apply t with torn := false }) input := by
    refine exprs_congr (fun _ _ _ _ => rfl) _ false {} fun t ht => ?_
    rw [← happly t ht]
  rw [hmended, evaluateIn, torn_exprs 0 false {} (read_laid env.separator input),
    List.any_eq_false]
  intro n hn htears
  have hmem : n ∈ (read env.separator input).listing := List.mem_append_left _ hn
  unfold tears at htears
  split at htears
  next head important hshape =>
    have hhead : n.shape.head? = some head := by rw [hshape]; rfl
    obtain ⟨-, start, t, after, hlaid⟩ := read_heads _ _ n hmem head hhead
    split at htears
    next found hfound =>
      rw [torn_styleOf fun _ => rfl] at htears
      exact absurd htears Bool.false_ne_true
    next failure hfailure =>
      rw [of_decide_eq_true htears] at hfailure
      exact utilityOf_ne_torn_of_shut hlaid (hshut n hmem head hhead) hfailure
  next => exact absurd htears Bool.false_ne_true

/-- An intact class list is evaluated without coming upon a torn name. -/
theorem Intact.torn_evaluateIn : ∀ {levels : Nat} {mode : Mode} {input : Text},
    env.Intact levels input → (env.evaluateIn mode (env.applyWithin levels) input).torn = false
  | 0, _, _, h => Environment.torn_evaluateIn h fun _ _ => rfl
  | levels + 1, _, input, h => by
    refine Environment.torn_evaluateIn h.1 fun t ht => ?_
    have hbelow :
        (env.evaluateIn .applied (env.applyWithin levels) (splitImportant t).1).torn = false :=
      (h.2 t ht).torn_evaluateIn
    rw [applyWithin_succ, Report.torn_bind]
    exact (Bool.or_false _).trans hbelow

/-- What a text names on its own has a style unless the text holds a torn name or one is applied. -/
theorem Intact.torn_findUtility {input : Text} (h : env.Intact applyLevels (Text.trim input)) :
    (env.findUtility input).torn = false := by
  have htorn :
      (env.evaluateIn .direct (env.applyWithin applyLevels) (Text.trim input)).torn = false :=
    h.torn_evaluateIn
  unfold findUtility
  split
  next source head marked hexprs =>
    -- the style is evaluated as it is in the class list that consists of the utility
    rw [evaluateIn, hexprs, exprs, Report.torn_bind, torn_expr_utility, Bool.or_eq_false_iff,
      tears] at htorn
    dsimp only at htorn
    cases hfound : env.utilityOf head with
    | ok found =>
      rw [hfound] at htorn
      dsimp only
      rw [Report.torn_bind]
      exact (Bool.or_false _).trans htorn.1
    | error failure =>
      rw [hfound] at htorn
      cases failure with
      | torn => exact absurd htorn.1 (Ne.symm Bool.false_ne_true)
      | notFound => rfl
      | ambiguous => rfl
  next => rfl

end Environment
end UtilityCss
