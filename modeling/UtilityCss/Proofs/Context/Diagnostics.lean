import UtilityCss.Proofs.Evaluation.Fault

/-!
# What a context refuses

The notes on a class list are exactly the faults of its parts, and the styles are those of
the parts without a fault.  A strict context refuses a class list with notes and hands them
over; otherwise strictness makes no difference.

All this is said of what evaluation reports.  A torn name keeps the report from whoever
asked, in a strict context and in a lenient one.
-/

namespace UtilityCss
namespace Context

open ClassList

variable (ctx : Context)

/-- The context made strict or lenient. -/
def withStrict (strict : Bool) : Context := { ctx with strict := strict }

/-- A torn name leaves no answer. -/
theorem answer_of_torn {α : Type} {input : Text} {r : Report α} (h : r.torn = true) :
    ctx.answer input r = .error .torn := by
  unfold answer Report.strict Report.lenient
  rw [h]
  split <;> rfl

/-- What a strict context does not refuse it answers as a lenient one does. -/
theorem answer_withStrict {α : Type} (input : Text) {r : Report α} (h : r.torn = false) :
    (ctx.withStrict false).answer input r = .ok r.value ∧
      (ctx.withStrict true).answer input r =
        if r.diagnostics = [] then .ok r.value else .error (.rejected input r.diagnostics) := by
  unfold answer Report.strict Report.lenient withStrict
  rw [h]
  cases r.diagnostics <;> exact ⟨rfl, rfl⟩

/-- The notes on a class list are the faults of its parts, in the order in which the parts
begin.  What is at fault adds nothing to the styles.  A strict context hands over the notes
if there are any, and otherwise answers like a lenient one.  No answer is given just if a
utility is torn, and that takes a name that is not closed, in the class list or in one that a
style applies. -/
theorem evaluate_faults (ctx : Context) (input : Text) :
    let nodes := (read ctx.env.separator input).listing
    let apply := ctx.env.applyWithin Environment.applyLevels
    let report := ctx.env.evaluate input
    let pruned :=
      ctx.env.exprs .direct apply false (ctx.env.exprsPrune (read ctx.env.separator input).exprs) {}
    report.diagnostics.Perm (nodes.flatMap ctx.env.faults) ∧
      report.diagnostics.Pairwise (fun d d' => d.slice.start ≤ d'.slice.start) ∧
      (∀ d ∈ report.diagnostics, d.slice.PartOf ⟨0, input⟩) ∧
      (report.value = pruned.value ∧ Environment.OnlyIncomplete pruned.diagnostics) ∧
      (report.torn = true ↔ ∃ n ∈ nodes, ctx.env.tears apply n = true) ∧
      (∀ n ∈ nodes, n.closed = true → ctx.env.tears apply n = true →
        ∃ head important found, n.shape = .utility head important ∧
          ctx.env.utilityOf head = .ok found ∧ (ctx.env.styleOf apply found).torn = true) ∧
      (report.torn = true → ∀ strict, (ctx.withStrict strict).evaluate input = .error .torn ∧
        (ctx.withStrict strict).css input = .error .torn) ∧
      (report.torn = false →
        let lenient := ctx.withStrict false
        let strict := ctx.withStrict true
        lenient.evaluate input = .ok report.value ∧
          (strict.evaluate input =
            if report.diagnostics = [] then lenient.evaluate input
            else .error (.rejected input report.diagnostics)) ∧
          strict.css input =
            if report.diagnostics = [] then lenient.css input
            else .error (.rejected input report.diagnostics)) := by
  intro nodes apply report pruned
  have happly : ∀ t, (apply t).diagnostics = [] := Environment.diagnostics_applyWithin _
  have hlaid := read_laid ctx.env.separator input
  have hnoted : Noted 0 input report.diagnostics := Environment.noted_exprs happly false {} hlaid
  have hlisting : nodes = (exprsListing 0 (read ctx.env.separator input).exprs).1 ++
      [⟨⟨0, input⟩, true, .program (exprsListing 0 (read ctx.env.separator input).exprs).2⟩] := rfl
  refine ⟨?_, hnoted.ordered, hnoted.partOf, ⟨?_, ?_⟩, ?_, ?_, ?_, ?_⟩
  · rw [hlisting, List.flatMap_append, List.flatMap_singleton]
    exact (Environment.perm_exprs happly 0 false {} hlaid).trans (.of_eq (List.append_nil _).symm)
  · exact (Environment.value_exprsPrune _ false {}).symm
  · exact Environment.onlyIncomplete_exprsPrune happly false {} hlaid
  · have htorn : report.torn = nodes.any (ctx.env.tears apply) := by
      rw [hlisting, List.any_append, ← Environment.torn_exprs 0 false {} hlaid]
      exact (Bool.or_false _).symm
    rw [htorn, List.any_eq_true]
  · intro n hn hclosed htears
    unfold Environment.tears at htears
    split at htears
    next head important hshape =>
      obtain ⟨hhead, start, t, after, hin⟩ := read_heads _ _ n hn head (by rw [hshape]; rfl)
      have hnottorn : ctx.env.utilityOf head ≠ .error .torn :=
        Environment.utilityOf_ne_torn hin (hhead ▸ hclosed)
      split at htears
      next found hfound => exact ⟨head, important, found, hshape, hfound, htears⟩
      next failure hfailure =>
        rw [of_decide_eq_true htears] at hfailure
        exact absurd hfailure hnottorn
    next => exact absurd htears Bool.false_ne_true
  · intro htorn strict
    have hevaluate : (ctx.withStrict strict).evaluate input = .error .torn :=
      (ctx.withStrict strict).answer_of_torn htorn
    exact ⟨hevaluate, by rw [css, hevaluate]; rfl⟩
  · intro htorn
    obtain ⟨hlenient, hstrict⟩ := ctx.answer_withStrict input htorn
    have hevaluate : (ctx.withStrict true).evaluate input =
        if report.diagnostics = [] then (ctx.withStrict false).evaluate input
        else .error (.rejected input report.diagnostics) := by
      show (ctx.withStrict true).answer input report =
        if report.diagnostics = [] then (ctx.withStrict false).answer input report else _
      rw [hstrict, hlenient]
    refine ⟨hlenient, hevaluate, ?_⟩
    show ((ctx.withStrict true).evaluate input).map _ =
      if report.diagnostics = [] then ((ctx.withStrict false).evaluate input).map _ else _
    rw [hevaluate]
    split <;> rfl

/-- Where the brackets of a modifier are not closed and the character before its slash takes more
than one byte, there is nothing but a torn name: what is wrong is not said, and the strict
context does not hand it over. -/
theorem evaluate_faults_torn :
    let settings : Settings := ⟨[':'], [], .all false, .media, []⟩
    let ctx : Context := ⟨⟨⟨.null⟩, settings, .colon, .empty⟩, [], false⟩
    let input : Text := ['\xe9', '/', '[', '.', '5']
    (∃ n ∈ (read .colon input).listing, n.closed = false) ∧
      (¬ ∃ styles, ctx.evaluate input = .ok styles) ∧
      ¬ ∃ notes, (ctx.withStrict true).evaluate input = .error (.rejected input notes) := by
  intro settings ctx input
  have htorn : (ctx.env.evaluate input).torn = true := by decide
  refine ⟨⟨_, List.Mem.head _, rfl⟩, ?_, ?_⟩
  · rintro ⟨styles, h⟩
    rw [evaluate, ctx.answer_of_torn htorn] at h
    exact absurd h (by simp)
  · rintro ⟨notes, h⟩
    have htrue : (ctx.withStrict true).evaluate input = .error .torn :=
      (ctx.withStrict true).answer_of_torn htorn
    rw [htrue] at h
    exact absurd h (by simp)

end Context
end UtilityCss
