import UtilityCss.Context
import UtilityCss.Proofs.Bytewise.Name
import UtilityCss.Proofs.Bytewise.Reader
import UtilityCss.Proofs.Bytewise.Theme
import UtilityCss.Proofs.Bytewise.Unit
import UtilityCss.Proofs.Evaluation.Intact

/-!
# No cut fails

All that a context is asked for is read off texts, and reading cuts them.  A context that handles
its texts by byte offsets could cut one past its end, at the wrong end of another offset or
inside of a character.  It never does: whatever is read by offsets is what is read along the
characters (`Bytewise.Faithful`), and the one cut that can fail, which takes the modifier off a
name, fails for no class list that is intact (`slices_succeed`).
-/

namespace UtilityCss

open ClassList

/-- What is read by byte offsets in an environment is what is read along the characters, and none
of the cuts fails. -/
structure Bytewise.Faithful (env : Environment) : Prop where
  /-- Class lists are read without a failing cut. -/
  reader : ∀ source, read? env.separator source = some (read env.separator source)
  /-- The scanner for brackets stops where the source can be cut. -/
  scanner : ∀ c : Cursor,
    let after := c.advance (Brackets.closing c).length
    closing c.source c.offset = (after.offset, (Brackets.closing c).closed) ∧
      c.source.from? (closing c.source c.offset).1 = some after.rest
  /-- Of the cuts that the readings of a name take only the one behind it can fail: the one that
  takes its modifier off. -/
  readings : ∀ {α : Type} (table : SpecTable α) (isLookup : α → Bool) (name : Text)
    (m : Option ModifierText), all? table isLookup name m = Reading.all? table isLookup name m
  values : ∀ raw, value? env.theme raw = some (Bracketed.value env.theme raw)
  selectors : ∀ raw, selector? raw = some (Bracketed.selector? raw)
  declarations : ∀ raw, declaration? raw = some (Bracketed.declaration? raw)
  splitting : ∀ (p : Char → Bool) (t : Text), atTop? p t = some (Split.atTop p t)
  functionNames : ∀ t, functionName? t = some (Value.functionName? t)
  images : ∀ t, isImageLayer? t = some (Value.isImageLayer t)
  units : ∀ t, firstUnit? t (Text.bytes t + 1) 0 0 0 = some (Value.firstUnit? t)
  colors : ∀ t, color? t = some (Value.Color.read t)
  opacities : ∀ value opacity,
    withOpacity? value opacity = some (Value.withOpacity? value opacity)
  templates : ∀ template, levels? template = some (Wrapping.levels template)
  paths : ∀ path, resolve? env.theme path = some (env.theme.resolve? path)
  themeCalls : ∀ t, renderCalls? env.theme t = some (env.theme.renderCalls t)

/-- Reading by byte offsets is reading along the characters. -/
theorem Bytewise.faithful (env : Environment) : Bytewise.Faithful env where
  reader := read?_eq env.separator
  scanner c := by
    have hsource : (c.advance (Brackets.closing c).length).source = c.source :=
      Cursor.source_advance c _
    have hclosing := closing_offset (c := c) rfl
    exact ⟨hclosing, by rw [hclosing]; exact from?_offset hsource⟩
  readings := all?_eq
  values := value?_eq env.theme
  selectors := selector?_eq
  declarations := declaration?_eq
  splitting := atTop?_eq
  functionNames := functionName?_eq
  images := isImageLayer?_eq
  units := firstUnit?_eq
  colors := color?_eq
  opacities := withOpacity?_eq
  templates := levels?_eq
  paths := resolve?_eq env.theme
  themeCalls := renderCalls?_eq env.theme

namespace Context

variable (ctx : Context)

theorem answer_ne_torn {α : Type} {input : Text} {r : Report α} (h : r.torn = false) :
    ctx.answer input r ≠ .error .torn := by
  unfold answer Report.strict Report.lenient
  rw [h]
  cases ctx.strict <;> cases r.diagnostics <;> simp

theorem wrap_ne_torn (input : Text) : ctx.wrap input ≠ .error .torn := by
  unfold wrap
  dsimp only
  split
  · simp
  · exact ctx.answer_ne_torn (Environment.torn_wrapExprs _ _
      (Environment.sound_of_mem_spine ctx.env.separator _))

theorem findVariant_ne_torn (input : Text) : ctx.findVariant input ≠ .error .torn := by
  have htorn : (ctx.env.findVariant input).torn = false := by
    unfold Environment.findVariant
    dsimp only
    split
    next start v hexprs =>
      have hmem : Expr.span start v none ∈ (read ctx.env.separator _).exprs :=
        hexprs ▸ List.mem_singleton_self _
      have hsound : v.Sound :=
        Environment.sound_of_mem_spine ctx.env.separator _ _ hmem v (List.mem_singleton_self v)
      have hresolution : ctx.env.Resolution (ctx.env.singleVariant v) :=
        Environment.resolution_singleVariant hsound
      generalize ctx.env.singleVariant v = resolved at hresolution
      cases hresolution <;> rfl
    next => rfl
  unfold findVariant Report.lenient
  rw [htorn]
  simp

/-- A context never cuts a text where it cannot be cut, unless it is in a class list with a plain
name whose bracketed modifier is left open, or in one that is applied for it. -/
theorem slices_succeed (ctx : Context) (input : Text) :
    (ctx.env.Intact Environment.applyLevels input →
      ctx.evaluate input ≠ .error .torn ∧ ctx.css input ≠ .error .torn) ∧
    (ctx.env.Intact Environment.applyLevels (Text.trim input) →
      ctx.findUtility input ≠ .error .torn) ∧
    ctx.wrap input ≠ .error .torn ∧
    ctx.findVariant input ≠ .error .torn ∧
    (Bytewise.resolve? ctx.env.theme input).map (·.getD []) = some (ctx.renderPath input) ∧
    Bytewise.renderCalls? ctx.env.theme input = some (ctx.renderCalls input) ∧
    Bytewise.Faithful ctx.env := by
  refine ⟨fun hintact => ?_, fun hintact => ?_, ctx.wrap_ne_torn input,
    ctx.findVariant_ne_torn input, ?_, Bytewise.renderCalls?_eq _ input, Bytewise.faithful ctx.env⟩
  · have heval : ctx.evaluate input ≠ .error .torn := ctx.answer_ne_torn hintact.torn_evaluateIn
    refine ⟨heval, ?_⟩
    unfold css
    cases h : ctx.evaluate input with
    | ok styles => simp [Except.map]
    | error failure => exact fun htorn => heval (h.trans (by injection htorn with e; rw [e]))
  · unfold findUtility Report.lenient
    rw [hintact.torn_findUtility]
    simp
  · rw [Bytewise.resolve?_eq]
    rfl

/-- Names and modifiers outside of the ASCII range, on their own and applied, and the same modifier
left open. -/
theorem slices_succeed_modifiers :
    let settings : Settings := ⟨[':'], [], .all false, .media, []⟩
    let applied : Text := ['m', '-', '[', 'é', ']', '/', '[', 'é', ']']
    let m : LookupUtility :=
      ⟨[], [.any], .standard, fun text info => [(text, .scalar (info.modifier.getD []))], none⟩
    let registry : Registry :=
      ⟨[(['c'], [⟨[], .fixed [("@apply", .scalar applied)] .standard⟩]), (['m'], [⟨[], .lookup m⟩]),
        (['é'], [⟨[], .fixed [(['a'], .scalar ['b'])] .standard⟩])], [], []⟩
    let ctx : Context := ⟨⟨⟨.null⟩, settings, .colon, registry⟩, [], false⟩
    let input : Text := ['c', ' ', 'é', '/', '[', 'é', ']']
    let opened : Text := ['c', ' ', 'é', '/', '[', 'é']
    (ctx.env.Intact Environment.applyLevels input ∧
      ctx.evaluate input ≠ .error .torn ∧ ctx.css input ≠ .error .torn ∧
      ctx.findUtility input ≠ .error .torn) ∧
    ¬ ctx.env.Intact Environment.applyLevels opened ∧ ctx.evaluate opened = .error .torn := by
  intro settings applied m registry ctx input opened
  have hintact : ctx.env.Intact Environment.applyLevels input := by decide +kernel
  have hblanks : Text.trim input = input := by decide
  obtain ⟨hevaluate, hfind, -⟩ := slices_succeed ctx input
  rw [hblanks] at hfind
  obtain ⟨heval, hcss⟩ := hevaluate hintact
  exact ⟨⟨hintact, heval, hcss, hfind hintact⟩, fun h => absurd h.1 (by decide), by decide +kernel⟩

end Context
end UtilityCss
