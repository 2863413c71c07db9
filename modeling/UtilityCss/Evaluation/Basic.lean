import UtilityCss.ClassList.Parser
import UtilityCss.Evaluation.Directive
import UtilityCss.Evaluation.Utility

/-!
# Evaluating class lists

The styles of a class list are those of its expressions, merged in order.  Marks
of importance apply to the utilities they enclose; where a selector is configured
for importance, marked utilities are collected apart.

## Applying class lists

Evaluating a static utility expands its tree, and expanding `@apply` evaluates
another class list.  The levels of this nesting are counted, and past a limit
nothing is applied.  So one level is evaluated by a recursion on the class list
and on style trees, given how the level below applies class lists, and the levels
by a recursion on their number.
-/

namespace UtilityCss

/-- The styles of a class list. -/
structure Evaluated where
  tree : StyleTree := []
  /-- What was marked important, when a selector is configured for it. -/
  important : StyleTree := []
  deriving DecidableEq, Repr

namespace Evaluated

/-- Merges further styles. -/
def merge (e f : Evaluated) : Evaluated :=
  ⟨StyleTree.merge e.tree f.tree, StyleTree.merge e.important f.important⟩

/-- Wraps the styles. -/
def wrapped (e : Evaluated) (w : Wrapper) : Evaluated := ⟨w.apply e.tree, w.apply e.important⟩

end Evaluated

/-- What a class list is evaluated for. -/
inductive Mode where
  /-- For whoever asks. -/
  | direct
  /-- To be applied inside a style tree. -/
  | applied
  deriving DecidableEq, Repr

namespace Environment

variable (env : Environment)

/-- Adds the style of a utility, marked important or not. -/
def emit (mode : Mode) (flags : Flags) (marked : Bool) (tree : StyleTree) (out : Evaluated) :
    Evaluated :=
  match env.settings.important with
  | .selector _ =>
    if marked then
      match mode with
      | .direct => { out with important := StyleTree.merge out.important tree }
      | .applied => { out with tree := StyleTree.merge out.tree (StyleTree.important tree) }
    else { out with tree := StyleTree.merge out.tree tree }
  | .all on =>
    let tree := if marked || on && flags.respectsImportant then StyleTree.important tree else tree
    { out with tree := StyleTree.merge out.tree tree }

/-- The style of a resolved utility; the directives of a static one are expanded. -/
def styleOf (apply : Text → Report StyleTree) (found : ResolvedUtility) : Report StyleTree :=
  if found.spec.isLookup then return found.tree else Directive.expand env apply found.tree

mutual

/-- Adds the styles of an expression. -/
def expr (mode : Mode) (apply : Text → Report StyleTree) (important : Bool) :
    ClassList.Expr → Evaluated → Report Evaluated
  | .group source members marked closed, out => do
    Report.noteIf (!closed) .parseIncomplete source
    exprs mode apply (important || marked) members out
  | .span _ variant none, out => do
    let _ ← env.wrapper? variant
    return out
  | .span _ variant (some child), out => do
    let wrapper ← env.wrapper? variant
    let inner ← expr mode apply important child {}
    match wrapper with
    | some wrapper => return out.merge (inner.wrapped wrapper)
    | none => return out
  | .utility source head marked, out => do
    Report.noteIf (!head.closed) .parseIncomplete source
    match env.utilityOf head with
    | .ok found =>
      let tree ← env.styleOf apply found
      return env.emit mode found.spec.flags (important || marked) tree out
    | .error failure =>
      failure.report .utilityNotFound source
      return out
  | .property source value marked closed, out => do
    Report.noteIf (!closed) .parseIncomplete source
    match Bracketed.declaration? value.text with
    | some (property, raw) =>
      let tree : StyleTree := [(property, .scalar (Bracketed.value env.theme raw))]
      return env.emit mode .standard (important || marked) tree out
    | none =>
      Report.note .utilityNotFound source
      return out

/-- Adds the styles of expressions in order. -/
def exprs (mode : Mode) (apply : Text → Report StyleTree) (important : Bool) :
    List ClassList.Expr → Evaluated → Report Evaluated
  | [], out => return out
  | e :: rest, out => do exprs mode apply important rest (← expr mode apply important e out)

end

/-- The styles of a class list. -/
def evaluateIn (mode : Mode) (apply : Text → Report StyleTree) (input : Text) :
    Report Evaluated :=
  env.exprs mode apply false (ClassList.read env.separator input).exprs {}

/-- A class list that is applied, without the mark at its end that makes its styles
important, and whether the mark was there. -/
def splitImportant (classes : Text) : Text × Bool :=
  let classes := Text.trim classes
  match Text.dropTail? "!important" classes with
  | some rest => (Text.trimEnd rest, true)
  | none => (classes, false)

/-- The styles of a class list that is applied with so many levels left. -/
def applyWithin : Nat → Text → Report StyleTree
  | 0, _ => return []
  | levels + 1, classes => do
    let (classes, important) := splitImportant classes
    let result ← (env.evaluateIn .applied (applyWithin levels) classes).silent
    return if important then StyleTree.important result.tree else result.tree

/-- How many levels of class lists may be applied inside each other. -/
def applyLevels : Nat := 32

/-- The styles of a class list, applying at most so many levels. -/
def evaluateWithin (levels : Nat) (input : Text) : Report Evaluated :=
  env.evaluateIn .direct (env.applyWithin levels) input

/-- The styles of a class list. -/
def evaluate (input : Text) : Report Evaluated := env.evaluateWithin applyLevels input

/-- A style tree with its directives expanded. -/
def expand (tree : StyleTree) : Report StyleTree :=
  Directive.expand env (env.applyWithin applyLevels) tree

/-! ## Single utilities and variants -/

/-- The utility that a text names on its own, with its style. -/
def findUtility (input : Text) : Report (Option ResolvedUtility) :=
  match (ClassList.read env.separator (Text.trim input)).exprs with
  | [.utility _ head _] =>
    match env.utilityOf head with
    | .ok found => do
      let tree ← env.styleOf (env.applyWithin applyLevels) found
      return some { found with tree := tree }
    | .error .torn => do
      Report.tear
      return none
    | .error _ => return none
  | _ => return none

/-- The variant that a text names on its own, with or without the separator. -/
def findVariant (input : Text) : Report (Option ResolvedVariant) :=
  let input := env.separator.closeWith (Text.trim input)
  match (ClassList.read env.separator input).exprs with
  | [.span _ variant none] =>
    match env.singleVariant variant with
    | .ok found => return some found
    | .error .torn => do
      Report.tear
      return none
    | .error _ => return none
  | _ => return none

/-- Adds the variants of an expression to a wrapper.  What is no variant, or does not
resolve, is noted and adds nothing. -/
def wrapExpr : ClassList.Expr → Wrapper → Report Wrapper
  | .span _ variant child, wrapper => do
    let found ← env.wrapper? variant
    let wrapper :=
      match found with
      | some inner => wrapper.around inner
      | none => wrapper
    match child with
    | some child => wrapExpr child wrapper
    | none => return wrapper
  | e, wrapper => do
    Report.note .variantNotFound e.source
    return wrapper

/-- Adds the variants of expressions to a wrapper in order. -/
def wrapExprs : List ClassList.Expr → Wrapper → Report Wrapper
  | [], wrapper => return wrapper
  | e :: rest, wrapper => do wrapExprs rest (← env.wrapExpr e wrapper)

/-- The wrapper of a text that consists of variants. -/
def wrapper (input : Text) : Report Wrapper :=
  env.wrapExprs (ClassList.read env.separator input).exprs .identity

end Environment
end UtilityCss
