import UtilityCss.Proofs.ClassList.Blanks
import UtilityCss.Proofs.Context.Diagnostics
import UtilityCss.Proofs.Evaluation.Report
import UtilityCss.Proofs.Evaluation.WellKeyed

/-!
# Looking a utility up

A class list that is a single unmarked utility can be evaluated, or the utility can be looked up.
Both resolve the same name and expand the directives of what is found, so there is a utility
exactly if evaluating notes none that is missing or ambiguous, and its style is that of the class
list.  Looking up leaves the blanks around the class list out, which makes a difference if the
bracket of a modifier is open.
-/

namespace UtilityCss

open ClassList

variable {b b' s : Text} {head : Head}

namespace Environment

variable {env : Environment}

/-- The kinds of the notes that are taken on a class list. -/
def noted (env : Environment) (input : Text) : List DiagnosticKind :=
  (env.evaluate input).diagnostics.map Diagnostic.kind

/-! ## The two ways -/

/-- A single unmarked utility is evaluated like this. -/
theorem evaluate_of_read (himportant : env.settings.important = .all false) {source : Slice}
    (hread : (read env.separator s).exprs = [.utility source head false]) :
    env.evaluate s = (do
      Report.noteIf (!head.closed) .parseIncomplete source
      match env.utilityOf head with
      | .ok found =>
        let tree ← env.styleOf (env.applyWithin applyLevels) found
        return ⟨StyleTree.merge [] tree, []⟩
      | .error failure =>
        failure.report .utilityNotFound source
        return {}) := by
  have hemit : ∀ flags tree, env.emit .direct flags (false || false) tree {} =
      ⟨StyleTree.merge [] tree, []⟩ := by
    intro flags tree
    rw [emit, himportant]
    rfl
  show env.exprs .direct (env.applyWithin applyLevels) false (read env.separator s).exprs {} = _
  rw [hread, exprs_singleton, expr]
  cases env.utilityOf head with
  | ok found => simp only [hemit]
  | error failure => rfl

/-- And looked up like this. -/
theorem findUtility_of_read {source : Slice} {marked : Bool}
    (hread : (read env.separator (Text.trim s)).exprs = [.utility source head marked]) :
    env.findUtility s =
      match env.utilityOf head with
      | .ok found => do
        let tree ← env.styleOf (env.applyWithin applyLevels) found
        return some { found with tree := tree }
      | .error .torn => do
        Report.tear
        return none
      | .error _ => return none := by
  cases hfound : env.utilityOf head with
  | ok found => simp only [findUtility, hread, hfound]
  | error failure => cases failure <;> simp only [findUtility, hread, hfound]

/-- What is looked up agrees with what is evaluated if both resolve to the same. -/
theorem findUtility_agrees (hregistry : env.registry.WellKeyed)
    (himportant : env.settings.important = .all false) {inner : Head} {source source' : Slice}
    (hread : (read env.separator s).exprs = [.utility source head false])
    (hread' : (read env.separator (Text.trim s)).exprs = [.utility source' inner false])
    (hsame : env.utilityOf inner = env.utilityOf head) :
    (env.findUtility s).lenient.map (Option.map ResolvedUtility.tree) =
      (env.evaluate s).lenient.map fun styles =>
        if .utilityNotFound ∈ env.noted s ∨ .ambiguousMatch ∈ env.noted s then none
        else some styles.tree := by
  rw [noted, evaluate_of_read himportant hread, findUtility_of_read hread', hsame]
  cases hfound : env.utilityOf head with
  | error failure => cases head.closed <;> cases failure <;> rfl
  | ok found =>
    have hsilent : (env.styleOf (env.applyWithin applyLevels) found).diagnostics = [] :=
      diagnostics_styleOf (diagnostics_applyWithin applyLevels) found
    have hdistinct : Keyed.Distinct (env.styleOf (env.applyWithin applyLevels) found).value :=
      (wellKeyed_styleOf hregistry (fun t => wellKeyed_applyWithin hregistry t applyLevels)
        (wellKeyed_of_utilityOf hregistry hfound)).distinct
    obtain ⟨tree, torn, hstyle⟩ : ∃ tree torn,
        env.styleOf (env.applyWithin applyLevels) found = ⟨tree, [], torn⟩ :=
      ⟨_, _, Report.ext rfl hsilent rfl⟩
    rw [hstyle] at hdistinct
    have hmerge : StyleTree.merge [] tree = tree := StyleTree.nil_merge hdistinct
    simp only [hstyle]
    cases torn with
    | true => cases head.closed <;> rfl
    | false =>
      have hfinal : (.ok (some tree) : Except CompileError (Option StyleTree)) =
          .ok (some (StyleTree.merge [] tree)) := by rw [hmerge]
      cases head.closed <;> exact hfinal

/-- Utilities that are written alike and resolve to the same are evaluated alike. -/
theorem evaluate_alike (himportant : env.settings.important = .all false) {s' : Text}
    {head' : Head} {source source' : Slice}
    (hread : (read env.separator s).exprs = [.utility source head false])
    (hread' : (read env.separator s').exprs = [.utility source' head' false])
    (hclosed : head'.closed = head.closed) (hsame : env.utilityOf head' = env.utilityOf head) :
    (env.evaluate s').value = (env.evaluate s).value ∧
      (env.evaluate s').torn = (env.evaluate s).torn ∧ env.noted s' = env.noted s := by
  rw [noted, noted, evaluate_of_read himportant hread, evaluate_of_read himportant hread', hclosed,
    hsame]
  cases env.utilityOf head with
  | ok found => cases head.closed <;> exact ⟨rfl, rfl, rfl⟩
  | error failure => cases head.closed <;> cases failure <;> exact ⟨rfl, rfl, rfl⟩

/-! ## Blanks -/

/-- Blanks behind what is open make no difference to the utility, if it is no modifier. -/
theorem utilityOf_extend (hb : ∀ ch ∈ b, Text.isBlank ch = true)
    (hclosed : head.modifierClosed = true ∨ b = []) :
    env.utilityOf (head.extend b) = env.utilityOf head := by
  rcases hclosed with hmodifier | rfl
  · cases head with
    | plain name m => rw [Head.extend_of_closed (Bool.and_eq_true_iff.mpr ⟨hmodifier, rfl⟩)]
    | bracketed lead value m closed =>
      rw [Head.extend, Head.map_extend_of_closed (m := m) hmodifier]
      cases closed with
      | true => rfl
      | false => exact utilityOf_append_blanks hb lead value.start value.start value.text m false
  · rw [Head.extend_nil]

end Environment

namespace Context

/-- In a context where nothing is important that is not marked, let the class list `s` be a single
unmarked utility.  If its modifier is closed, should it have one, or no blank stands at the end of
`s`, the utility that is looked up for `s` has the style that `s` has where notes are not minded,
and there is one exactly if none of the notes on `s` says that a utility is missing or ambiguous.
Blanks around `s` make no difference to what is looked up, nor to the style and the notes, unless
they stand behind an open modifier. -/
theorem findUtility_eq_evaluate (ctx : Context) (hregistry : ctx.env.registry.WellKeyed)
    (himportant : ctx.env.settings.important = .all false) {source : Slice}
    (hread : (read ctx.env.separator s).exprs = [.utility source head false]) :
    let silent := ctx.withStrict false
    (head.modifierClosed = true ∨ Text.trimEnd s = s →
      (ctx.findUtility s).map (Option.map ResolvedUtility.tree) =
        (silent.evaluate s).map fun styles =>
          if .utilityNotFound ∈ ctx.env.noted s ∨ .ambiguousMatch ∈ ctx.env.noted s then none
          else some styles.tree) ∧
    ∀ b b' : Text, (∀ ch ∈ b, Text.isBlank ch = true) → (∀ ch ∈ b', Text.isBlank ch = true) →
      ctx.findUtility (b ++ s ++ b') = ctx.findUtility s ∧
      (head.modifierClosed = true ∨ b' = [] →
        silent.evaluate (b ++ s ++ b') = silent.evaluate s ∧
          ctx.env.noted (b ++ s ++ b') = ctx.env.noted s) := by
  intro silent
  obtain ⟨b₀, b₀', hs, hb₀, hb₀'⟩ := Text.exists_blanks s
  have htrim := Text.trim_trim s
  obtain ⟨inner, source', hinner⟩ := exists_read_utility_of_blanks hb₀ hb₀' htrim
    ⟨source, hs ▸ hread⟩
  -- with other blanks around it the class list is what is inside of `s`, taken further
  have hblanks : ∀ {b b' : Text}, (∀ ch ∈ b, Text.isBlank ch = true) →
      (∀ ch ∈ b', Text.isBlank ch = true) → ∃ source,
        (read ctx.env.separator (b ++ Text.trim s ++ b')).exprs =
          [.utility source ((inner.extend b').shift (Text.bytes b)) false] :=
    fun hb hb' => read_utility_blanks hb hb' htrim ⟨source', hinner⟩
  obtain ⟨source₀, hread₀⟩ := hblanks hb₀ hb₀'
  rw [← hs, hread] at hread₀
  obtain ⟨-, rfl, -⟩ := Expr.utility.inj (List.cons.inj hread₀).1
  rw [Head.modifierClosed_shift, Head.modifierClosed_extend]
  refine ⟨fun hclosed => ?_, fun b b' hb hb' => ⟨?_, fun hclosed => ?_⟩⟩
  · have hend : inner.modifierClosed = true ∨ b₀' = [] :=
      hclosed.imp_right fun htrimEnd => Text.eq_nil_of_trimEnd htrimEnd hs hb₀'
    refine Environment.findUtility_agrees hregistry himportant hread hinner ?_
    rw [Environment.utilityOf_shift, Environment.utilityOf_extend hb₀' hend]
  · have htrim' : Text.trim (b ++ s ++ b') = Text.trim s := by
      rw [Text.trim_append_blanks hb', Text.trim, Text.trimBy, List.dropWhile_append_of_pos hb]
      rfl
    rw [findUtility, Environment.findUtility, htrim']
    rfl
  · have hboth : b ++ s ++ b' = (b ++ b₀) ++ Text.trim s ++ (b₀' ++ b') := by
      conv_lhs => rw [hs]
      simp only [List.append_assoc]
    have hmore : ∀ ch ∈ b₀' ++ b', Text.isBlank ch = true :=
      List.forall_mem_append.mpr ⟨hb₀', hb'⟩
    obtain ⟨source₁, hread₁⟩ := hblanks (List.forall_mem_append.mpr ⟨hb, hb₀⟩) hmore
    rw [← hboth] at hread₁
    have hsame : ctx.env.utilityOf (inner.extend (b₀' ++ b')) =
        ctx.env.utilityOf (inner.extend b₀') := by
      rcases hclosed with hmodifier | rfl
      · rw [Environment.utilityOf_extend hmore (.inl hmodifier),
          Environment.utilityOf_extend hb₀' (.inl hmodifier)]
      · rw [List.append_nil]
    obtain ⟨hvalue, htorn, hnoted⟩ := Environment.evaluate_alike himportant hread hread₁
      (by simp) (by rw [Environment.utilityOf_shift, Environment.utilityOf_shift, hsame])
    exact ⟨answer_congr_of_lenient rfl hvalue htorn, hnoted⟩

/-- A value that is left open takes up the blanks behind it, which make no difference. -/
theorem findUtility_eq_evaluate_value :
    let m : LookupUtility :=
      ⟨[], [.any], .standard, fun text info => [(text, .scalar (info.modifier.getD []))], none⟩
    let env : Environment :=
      ⟨⟨.null⟩, ⟨[':'], [], .all false, .media, []⟩, .colon, ⟨[(['m'], [⟨[], .lookup m⟩])], [], []⟩⟩
    let ctx : Context := ⟨env, [], true⟩
    let silent := ctx.withStrict false
    let s : Text := ['m', '-', '[', 'v', ' ']
    let head : Head := .bracketed ⟨0, ['m']⟩ ⟨3, ['v', ' ']⟩ none false
    env.registry.WellKeyed ∧ (read env.separator s).exprs = [.utility ⟨0, s⟩ head false] ∧
      head.modifierClosed = true ∧
      (ctx.findUtility s).map (Option.map ResolvedUtility.tree) = .ok (some [(['v'], .scalar [])]) ∧
      ctx.findUtility ([' '] ++ s ++ [' ']) = ctx.findUtility s ∧
      silent.evaluate ([' '] ++ s ++ [' ']) = silent.evaluate s := by
  intro m env ctx silent s head
  have hregistry : env.registry.WellKeyed :=
    Registry.wellKeyed_of_lookup ⟨fun _ _ => StyleTree.WellKeyed.scalar _ _, fun _ h => by cases h⟩
  have hread : (read env.separator s).exprs = [.utility ⟨0, s⟩ head false] := rfl
  obtain ⟨hagrees, hblanks⟩ := findUtility_eq_evaluate ctx hregistry rfl hread
  obtain ⟨hfind, hevaluate⟩ := hblanks [' '] [' '] (by decide) (by decide)
  exact ⟨hregistry, hread, rfl, (hagrees (.inl rfl)).trans (by decide +kernel), hfind,
    (hevaluate (.inl rfl)).1⟩

/-- A modifier that is left open takes up the blank behind it too, and its text has it then. -/
theorem findUtility_ne_evaluate_modifier :
    let m : LookupUtility :=
      ⟨[], [.any], .standard, fun text info => [(text, .scalar (info.modifier.getD []))], none⟩
    let env : Environment :=
      ⟨⟨.null⟩, ⟨[':'], [], .all false, .media, []⟩, .colon, ⟨[(['m'], [⟨[], .lookup m⟩])], [], []⟩⟩
    let ctx : Context := ⟨env, [], false⟩
    let s : Text := ['m', '-', '[', 'v', ']', '/', '[', 'x', ' ']
    let head : Head := .bracketed ⟨0, ['m']⟩ ⟨3, ['v']⟩ (some ⟨⟨7, ['x', ' ']⟩, true, false⟩) true
    env.registry.WellKeyed ∧ (read env.separator s).exprs = [.utility ⟨0, s⟩ head false] ∧
      env.noted s = [.parseIncomplete] ∧
      (ctx.findUtility s).map (Option.map ResolvedUtility.tree) =
        .ok (some [(['v'], .scalar ['x'])]) ∧
      ctx.evaluate s = .ok ⟨[(['v'], .scalar ['x', ' '])], []⟩ ∧
      ctx.evaluate (Text.trim s) = .ok ⟨[(['v'], .scalar ['x'])], []⟩ := by
  intro m env ctx s head
  have hregistry : env.registry.WellKeyed :=
    Registry.wellKeyed_of_lookup ⟨fun _ _ => StyleTree.WellKeyed.scalar _ _, fun _ h => by cases h⟩
  exact ⟨hregistry, rfl, by decide +kernel, by decide +kernel, by decide +kernel, by decide +kernel⟩

end Context
end UtilityCss
