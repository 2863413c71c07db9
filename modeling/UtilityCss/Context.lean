import UtilityCss.Builtin.Plugins
import UtilityCss.Config.Resolve
import UtilityCss.Evaluation.Basic
import UtilityCss.Theme.Calls

/-!
# Contexts

A context is built once from a resolved configuration: the enabled built-in plugins
register first, then those of the configuration, and last the directives in the
global styles are expanded.  After that it answers what class lists compile to, and
what is registered.

A strict context refuses what it cannot evaluate, and says in the error what that
was; a lenient one leaves it out.  Strictness changes nothing else once a context
is built, so it is a field that may be set.
-/

namespace UtilityCss

/-- Why a context was not built. -/
inductive BuildError where
  /-- The separator cannot be used. -/
  | separator (error : SeparatorError)
  /-- A static registration came twice in a strict context. -/
  | duplicate (registration : Registry.Duplicate)
  /-- A class list that the global styles apply holds a torn name. -/
  | torn
  deriving DecidableEq, Repr

namespace BuildError

/-- The table as the error names it. -/
def tableName : Registry.Table → Text
  | .utility => "utility"
  | .variant => "variant"

/-- What the error says. -/
def message : BuildError → Text
  | separator error => "invalid separator: ".toList ++ error.message
  | duplicate d =>
    "duplicate ".toList ++ tableName d.table ++ " registration: ".toList ++ d.key
  | torn => "a modifier cannot be removed from its name"

end BuildError

/-- Why a text was not compiled. -/
inductive CompileError where
  /-- The context is strict, and there was something to note. -/
  | rejected (input : Text) (diagnostics : List Diagnostic)
  /-- The text holds a torn name. -/
  | torn
  deriving DecidableEq, Repr

namespace CompileError

/-- What the error says. -/
def message : CompileError → Text
  | rejected input diagnostics =>
    "failed to compile ".toList ++ '\x60' :: input ++ '\x60' :: ": ".toList
      ++ Text.joinWith "; " (diagnostics.map Diagnostic.message)
  | torn => "a modifier cannot be removed from its name"

end CompileError

/-- The value of a report whatever its notes are; a torn name leaves none. -/
def Report.lenient {α : Type} (r : Report α) : Except CompileError α :=
  if r.torn then .error .torn else .ok r.value

/-- The value of a report without notes. -/
def Report.strict {α : Type} (input : Text) (r : Report α) : Except CompileError α :=
  if r.torn then .error .torn
  else if r.diagnostics.isEmpty then .ok r.value
  else .error (.rejected input r.diagnostics)

/-- A registry together with the configuration that it was built from. -/
structure Context where
  env : Environment
  /-- The global styles with their directives expanded. -/
  globalStyles : StyleTree
  /-- Is everything refused that cannot be evaluated? -/
  strict : Bool

namespace Context

/-- Builds a context.  A strict one takes no static registration twice. -/
def build (config : ResolvedConfig) (strict : Bool) : Except BuildError Context :=
  match Separator.ofText config.settings.separator with
  | .error error => .error (.separator error)
  | .ok separator =>
    let around := config.surroundings
    match Registry.build strict around (Builtin.enabled config.settings ++ config.plugins) with
    | .error registration => .error (.duplicate registration)
    | .ok registry =>
      let env : Environment := ⟨around.theme, around.settings, separator, registry⟩
      let base := env.expand registry.base
      if base.torn then .error .torn else .ok ⟨env, base.value, strict⟩

/-- The context of the built-in preset and the built-in plugins alone. -/
def builtin : Except BuildError Context := build (Config.resolve []) false

variable (ctx : Context)

/-- What a report on a text amounts to in the context. -/
def answer {α : Type} (input : Text) (r : Report α) : Except CompileError α :=
  if ctx.strict then r.strict input else r.lenient

/-- A strict context answers with a value only what a lenient one answers. -/
theorem answer_eq_lenient {α : Type} {input : Text} {r : Report α} {value : α}
    (h : ctx.answer input r = .ok value) : r.lenient = .ok value := by
  unfold answer at h
  split at h
  · unfold Report.strict at h
    unfold Report.lenient
    split at h
    · simp at h
    · split at h
      · simp_all
      · simp at h
  · exact h

/-! ## Compiling -/

/-- The styles of a class list, those marked important apart when a selector is
configured for them. -/
def evaluate (input : Text) : Except CompileError Evaluated :=
  ctx.answer input (ctx.env.evaluate input)

/-- The two trees of evaluated styles as one. -/
def gathered (styles : Evaluated) : StyleTree :=
  match ctx.env.settings.important with
  | .selector selector =>
    if styles.important.isEmpty then styles.tree
    else StyleTree.merge styles.tree
      (StyleTree.nest (selector ++ " &".toList) styles.important)
  | .all _ => styles.tree

/-- The style tree of a class list, with the names of properties in camel case. -/
def css (input : Text) : Except CompileError StyleTree :=
  (ctx.evaluate input).map fun styles => StyleTree.camelize (ctx.gathered styles)

/-- The wrapper of a text that consists of variants; the separator at its end may be
missing. -/
def wrap (input : Text) : Except CompileError Wrapper :=
  let input := Text.trim input
  if input.isEmpty then .ok .identity
  else
    let input := ctx.env.separator.closeWith input
    ctx.answer input (ctx.env.wrapper input)

/-- The utility that a text names on its own. -/
def findUtility (input : Text) : Except CompileError (Option ResolvedUtility) :=
  (ctx.env.findUtility input).lenient

/-- The variant that a text names on its own. -/
def findVariant (input : Text) : Except CompileError (Option ResolvedVariant) :=
  (ctx.env.findVariant input).lenient

/-- The text that a theme path stands for, empty when there is none. -/
def renderPath (path : Text) : Text := (ctx.env.theme.resolve? path).getD []

/-- The text with its theme calls replaced. -/
def renderCalls (text : Text) : Text := ctx.env.theme.renderCalls text

/-! ## What is registered -/

/-- The names of utilities, in the order of registration. -/
def utilityNames : List Text := Keyed.keys ctx.env.registry.utilities

/-- The names of variants, in the order of registration. -/
def variantNames : List Text := Keyed.keys ctx.env.registry.variants

/-- The names of utilities whose specs satisfy a condition. -/
def utilitiesWhere (condition : List UtilitySpec → Bool) : List Text :=
  Keyed.keys (ctx.env.registry.utilities.filter fun entry => condition entry.2)

/-- The names of utilities that render colors. -/
def colorUtilities : List Text := ctx.utilitiesWhere fun specs => specs.any fun s => s.flags.color

/-- The names under which several lookup utilities are registered. -/
def ambiguousUtilities : List Text :=
  ctx.utilitiesWhere fun specs => 1 < specs.countP UtilitySpec.isLookup

end Context
end UtilityCss
