import UtilityCss.Context

/-!
# Reports

Reports compose like values with a log: going on is associative, and a value without
notes changes nothing.  What a context answers depends on a report only by its value, by
whether it has notes and by whether a name was torn, so two reports that agree on these
lead to the same answer wherever their notes lie.
-/

namespace UtilityCss
namespace Report

variable {α β : Type}

@[ext] theorem ext {r s : Report α} (hvalue : r.value = s.value)
    (hdiagnostics : r.diagnostics = s.diagnostics) (htorn : r.torn = s.torn) : r = s := by
  cases r
  cases s
  simp_all

@[simp] theorem value_map (f : α → β) (r : Report α) : (f <$> r).value = f r.value := rfl

@[simp] theorem diagnostics_map (f : α → β) (r : Report α) :
    (f <$> r).diagnostics = r.diagnostics :=
  List.append_nil _

@[simp] theorem torn_map (f : α → β) (r : Report α) : (f <$> r).torn = r.torn :=
  Bool.or_false _

instance : LawfulMonad Report :=
  LawfulMonad.mk' Report (fun r => by ext : 1 <;> simp)
    (fun a f => by ext : 1 <;> simp)
    (fun r f g => by ext : 1 <;> simp [List.append_assoc, Bool.or_assoc])

/-- Taking a note on a condition that does not hold is doing nothing. -/
@[simp] theorem noteIf_false (kind : DiagnosticKind) (slice : Slice) :
    noteIf false kind slice = pure () := rfl

@[simp] theorem diagnostics_note (kind : DiagnosticKind) (slice : Slice) :
    (note kind slice).diagnostics = [⟨kind, slice⟩] := rfl

end Report

/-! ## Answers -/

namespace Context

/-- A result that satisfies a condition, found by running what it is the result of. -/
theorem exists_of_toOption_any {ε α : Type} {r : Except ε α} {p : α → Prop} [DecidablePred p]
    (h : (r.toOption.any fun a => decide (p a)) = true) : ∃ a, r = .ok a ∧ p a := by
  cases r with
  | ok a => exact ⟨a, rfl, of_decide_eq_true h⟩
  | error e => cases h

variable {α : Type} (ctx : Context)

/-- There is no answer for a torn name, and none for a report with notes if the context is
strict.  Otherwise the answer is the value. -/
theorem answer_toOption (input : Text) (r : Report α) :
    (ctx.answer input r).toOption =
      if r.torn || (ctx.strict && !r.diagnostics.isEmpty) then none else some r.value := by
  unfold answer Report.strict Report.lenient
  cases ctx.strict <;> cases r.torn <;> cases r.diagnostics <;> rfl

theorem answer_eq_ok_iff {input : Text} {r : Report α} {a : α} : ctx.answer input r = .ok a ↔
    r.torn = false ∧ (ctx.strict = true → r.diagnostics = []) ∧ r.value = a := by
  unfold answer Report.strict Report.lenient
  cases ctx.strict <;> cases r.torn <;> cases r.diagnostics <;> simp

/-- A report with nothing but a value is answered with the value. -/
theorem answer_pure (input : Text) (a : α) : ctx.answer input (pure a) = .ok a := by
  unfold answer Report.strict Report.lenient
  cases ctx.strict <;> rfl

/-- A lenient context answers a report by its value, unless something was torn. -/
theorem answer_congr_of_lenient {ctx : Context} (hlenient : ctx.strict = false)
    {input input' : Text} {r r' : Report α} (hvalue : r.value = r'.value)
    (htorn : r.torn = r'.torn) : ctx.answer input r = ctx.answer input' r' := by
  rw [answer, answer, hlenient, if_neg Bool.false_ne_true, if_neg Bool.false_ne_true,
    Report.lenient, Report.lenient, hvalue, htorn]

end Context
end UtilityCss
