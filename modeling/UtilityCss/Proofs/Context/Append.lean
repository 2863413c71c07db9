import UtilityCss.Context
import UtilityCss.Proofs.Builtin.WellKeyed
import UtilityCss.Proofs.ClassList.Juxtaposition
import UtilityCss.Proofs.Evaluation.Contribution

/-!
# Class lists that are put together

Class lists may be joined with a blank in between.  If everything in the first is closed,
the expressions of both are those of the one and then those of the other, and if what the
second adds agrees on where something is nested, the styles are those of the one with those
of the other merged in.  A class list that is written twice says what it says once.
-/

namespace UtilityCss

open ClassList

namespace Environment

variable {env : Environment}

/-- The report on a class list of two, if what the second adds agrees. -/
theorem evaluate_append_blank (hregistry : env.registry.WellKeyed) {a b : Text}
    (hsettled : ∀ n ∈ (read env.separator a).listing, n.Settled a)
    (hagree : (env.contributions b).Pairwise Evaluated.Agree) :
    env.evaluate (a ++ ' ' :: b) =
      ⟨(env.evaluate a).value.merge (env.evaluate b).value,
        (env.evaluate a).diagnostics ++
          (env.evaluate b).diagnostics.map (Diagnostic.shift (Text.bytes a + 1)),
        (env.evaluate a).torn || (env.evaluate b).torn⟩ := by
  have hkeyed : ∀ t, StyleTree.WellKeyed (env.applyWithin applyLevels t).value :=
    fun t => wellKeyed_applyWithin hregistry t applyLevels
  have hquiet : ∀ t, (env.applyWithin applyLevels t).diagnostics = [] :=
    diagnostics_applyWithin applyLevels
  obtain ⟨hdiagnostics, htorn⟩ :
      (env.exprs .direct (env.applyWithin applyLevels) false (read env.separator b).exprs
        (env.evaluate a).value).SameNotes (env.evaluate b) := sameNotes_exprs _ false _ _
  have hboth : env.evaluate (a ++ ' ' :: b) = env.evaluate a >>= fun out =>
      (env.exprs .direct (env.applyWithin applyLevels) false (read env.separator b).exprs
        out).shift (Text.bytes a + 1) := by
    show env.exprs .direct _ false (read env.separator (a ++ ' ' :: b)).exprs {} = _
    rw [read_append env.separator hsettled, exprs_append]
    exact congrArg _ (funext fun out => exprs_shift hquiet _ false out)
  rw [hboth]
  ext : 1
  · exact value_exprs_of_agree hregistry hkeyed false _ hagree (env.evaluate a).value
  · rw [Report.diagnostics_bind, Report.diagnostics_shift, hdiagnostics]
  · rw [Report.torn_bind, Report.torn_shift, htorn]

end Environment

namespace Context

variable {ctx : Context}

/-- The answers for reports that are torn alike and have notes alike. -/
theorem answer_toOption_congr {α : Type} {input input' : Text} {r r' : Report α}
    (hvalue : r.value = r'.value) (hnotes : r.diagnostics = [] ↔ r'.diagnostics = [])
    (htorn : r.torn = r'.torn) :
    (ctx.answer input r).toOption = (ctx.answer input' r').toOption := by
  rw [answer_toOption, answer_toOption, hvalue, htorn]
  have hempty : r.diagnostics.isEmpty = r'.diagnostics.isEmpty := by
    rw [Bool.eq_iff_iff, List.isEmpty_iff, List.isEmpty_iff, hnotes]
  rw [hempty]

theorem css_toOption (ctx : Context) (input : Text) : (ctx.css input).toOption =
    (ctx.evaluate input).toOption.map fun styles => StyleTree.camelize (ctx.gathered styles) := by
  unfold css
  cases ctx.evaluate input <;> rfl

/-- Two class lists with a blank in between, of which the first is settled: everything that is read
off it is closed, and so is the parenthesis of each of its groups for the scan for brackets.  The
expressions are those of the one and those of the other, further on.  If what is merged into the
styles of the second agrees on where something is nested, the styles are those of the first with
those of the second merged in, and the notes on the second come after those on the first; so the
answer, where both have one, is the one merged into the other.  A class list of that sort that is
written twice has the answer that it has once. -/
theorem evaluate_append (ctx : Context) (a b : Text)
    (hsettled : ∀ n ∈ (read ctx.env.separator a).listing, n.Settled a) :
    (read ctx.env.separator (a ++ ' ' :: b)).exprs =
        (read ctx.env.separator a).exprs ++
          exprsShift (Text.bytes a + 1) (read ctx.env.separator b).exprs ∧
      (ctx.env.registry.WellKeyed → (ctx.env.contributions b).Pairwise Evaluated.Agree →
        let first := ctx.env.evaluate a
        let second := ctx.env.evaluate b
        ctx.env.evaluate (a ++ ' ' :: b) =
            ⟨⟨StyleTree.merge first.value.tree second.value.tree,
                StyleTree.merge first.value.important second.value.important⟩,
              first.diagnostics ++
                second.diagnostics.map (Diagnostic.shift (Text.bytes a + 1)),
              first.torn || second.torn⟩ ∧
          ∀ styles more, ctx.evaluate a = .ok styles → ctx.evaluate b = .ok more →
            ctx.evaluate (a ++ ' ' :: b) = .ok (styles.merge more)) ∧
      (ctx.env.registry.WellKeyed → (ctx.env.contributions a).Pairwise Evaluated.Agree →
        (ctx.evaluate (a ++ ' ' :: a)).toOption = (ctx.evaluate a).toOption ∧
          (ctx.css (a ++ ' ' :: a)).toOption = (ctx.css a).toOption) := by
  refine ⟨read_append ctx.env.separator hsettled, ?_, ?_⟩
  · intro hregistry hagree first second
    have hboth := Environment.evaluate_append_blank hregistry hsettled hagree
    refine ⟨hboth, ?_⟩
    intro styles more hstyles hmore
    obtain ⟨htorn, hquiet, rfl⟩ := ctx.answer_eq_ok_iff.mp hstyles
    obtain ⟨htorn', hquiet', rfl⟩ := ctx.answer_eq_ok_iff.mp hmore
    refine ctx.answer_eq_ok_iff.mpr ?_
    rw [hboth]
    refine ⟨by rw [htorn, htorn']; rfl, fun hstrict => ?_, rfl⟩
    rw [hquiet hstrict, hquiet' hstrict]
    rfl
  · intro hregistry hagree
    have htwice := Environment.evaluate_append_blank hregistry hsettled hagree
    rw [Evaluated.merge_self (Environment.wellKeyed_evaluate hregistry a)] at htwice
    have hevaluate : (ctx.evaluate (a ++ ' ' :: a)).toOption = (ctx.evaluate a).toOption := by
      refine answer_toOption_congr ?_ ?_ ?_
      · rw [htwice]
      · rw [htwice]
        simp
      · rw [htwice]
        exact Bool.or_self _
    exact ⟨hevaluate, by rw [css_toOption, css_toOption, hevaluate]⟩

/-- A group, and behind it two properties. -/
theorem evaluate_append_group :
    let settings : Settings := ⟨[':'], [], .all false, .media, []⟩
    let ctx : Context := ⟨⟨⟨.null⟩, settings, .colon, .empty⟩, [], false⟩
    let a : Text := ['(', '[', 'c', ':', 'd', ']', ')']
    let b : Text := ['[', 'e', ':', 'f', ']', ' ', '[', 'c', ':', 'h', ']']
    ctx.evaluate (a ++ ' ' :: b) =
        .ok ⟨[(['c'], .scalar ['h']), (['e'], .scalar ['f'])], []⟩ ∧
      (ctx.css (a ++ ' ' :: a)).toOption = (ctx.css a).toOption := by
  intro settings ctx a b
  have hclosed : (read .colon a).listing.all Node.closed = true := by decide
  have hsettled : ∀ n ∈ (read .colon a).listing, n.Settled a := fun n hn =>
    Node.settled_of_closed (List.all_eq_true.mp hclosed n hn) (by decide)
  obtain ⟨-, hboth, htwice⟩ := evaluate_append ctx a b hsettled
  have hregistry : ctx.env.registry.WellKeyed :=
    ⟨fun _ _ h => absurd h List.not_mem_nil, fun _ _ h => absurd h List.not_mem_nil⟩
  have hadds : ctx.env.contributions a = [⟨[(['c'], .scalar ['d'])], []⟩] ∧
      ctx.env.contributions b =
        [⟨[(['e'], .scalar ['f'])], []⟩, ⟨[(['c'], .scalar ['h'])], []⟩] := by decide
  have hagree : (ctx.env.contributions b).Pairwise Evaluated.Agree := by
    rw [hadds.2, List.pairwise_pair]
    exact ⟨StyleTree.agree_of_declarations (by decide) (by decide), StyleTree.agree_nil _⟩
  have hfirst : ctx.evaluate a = .ok ⟨[(['c'], .scalar ['d'])], []⟩ := by decide
  have hsecond : ctx.evaluate b = .ok ⟨[(['e'], .scalar ['f']), (['c'], .scalar ['h'])], []⟩ := by
    decide
  refine ⟨((hboth hregistry hagree).2 _ _ hfirst hsecond).trans (by decide), ?_⟩
  exact (htwice hregistry (by rw [hadds.1]; exact List.pairwise_singleton _ _)).2

/-- It is what is merged that has to agree, not the styles of the whole lists: here `q` replaces
what `p` nested, before `r` nests again.  The styles of the second list do not tell. -/
example :
    let one (name : Char) (value : StyleValue) : Text × List UtilitySpec :=
      ([name], [⟨[], .fixed [(['k'], value)] .standard⟩])
    let utilities : SpecTable UtilitySpec :=
      [one 'p' (.tree [(['x'], .scalar ['1'])]), one 'q' (.scalar ['v']),
        one 'r' (.tree [(['y'], .scalar ['2'])])]
    let settings : Settings := ⟨[':'], [], .all false, .media, []⟩
    let env : Environment := ⟨⟨.null⟩, settings, .colon, utilities, [], []⟩
    (env.evaluate ['q', ' ', 'r']).value.tree = [(['k'], .tree [(['y'], .scalar ['2'])])] ∧
      (env.evaluate ['p', ' ', 'q', ' ', 'r']).value.tree =
        [(['k'], .tree [(['y'], .scalar ['2'])])] ∧
      ((env.evaluate ['p']).value.merge (env.evaluate ['q', ' ', 'r']).value).tree =
        [(['k'], .tree [(['x'], .scalar ['1']), (['y'], .scalar ['2'])])] := by decide

end Context
end UtilityCss
