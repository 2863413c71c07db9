import UtilityCss.Proofs.Evaluation.Directive

/-!
# Environments that resolve alike

Evaluating asks the registry for nothing but what names resolve to.  So if every name
resolves to the same in two environments that have everything but their registries in
common, class lists have the same reports in both, and whoever asks a context gets the same
answers.
-/

namespace UtilityCss
namespace Environment

/-- The environments have everything but their registries in common, and every name resolves to
the same in both. -/
structure Alike (env env' : Environment) : Prop where
  theme : env'.theme = env.theme
  settings : env'.settings = env.settings
  separator : env'.separator = env.separator
  utility : ∀ name m, env'.utility name m = env.utility name m
  bracketedUtility : ∀ name value m,
    env'.bracketedUtility name value m = env.bracketedUtility name value m
  variant : ∀ name m, env'.variant name m = env.variant name m
  bracketedVariant : ∀ name value m,
    env'.bracketedVariant name value m = env.bracketedVariant name value m

namespace Alike

variable {env env' : Environment}

/-! ## Utilities and variants -/

theorem utilityOf (h : env.Alike env') (head : ClassList.Head) :
    env'.utilityOf head = env.utilityOf head := by
  cases head with
  | plain name m => exact h.utility _ _
  | bracketed lead value m closed =>
    rw [Environment.utilityOf, Environment.utilityOf, h.theme]
    exact h.bracketedUtility _ _ _

theorem singleVariant (h : env.Alike env') : ∀ v : ClassList.Variant,
    env'.singleVariant v = env.singleVariant v
  | .named _ (.plain ..) => h.variant _ _
  | .named _ (.bracketed ..) => by
    rw [Environment.singleVariant, Environment.singleVariant, h.theme]
    exact h.bracketedVariant _ _ _
  | .selector .. => rfl
  | .group .. => rfl

theorem resolved? (h : env.Alike env') (v : ClassList.Variant) :
    env'.resolved? v = env.resolved? v := by
  rw [Environment.resolved?, Environment.resolved?, h.singleVariant]

mutual

theorem wrapper? (h : env.Alike env') : ∀ v : ClassList.Variant,
    env'.wrapper? v = env.wrapper? v
  | .named .. => h.resolved? _
  | .selector .. => h.resolved? _
  | .group _ members => by
    rw [Environment.wrapper?, Environment.wrapper?, h.membersWrappers? members]

theorem membersWrappers? (h : env.Alike env') : ∀ members : List (List ClassList.Variant),
    env'.membersWrappers? members = env.membersWrappers? members
  | [] => rfl
  | links :: rest => by
    rw [Environment.membersWrappers?, Environment.membersWrappers?, h.chainWrapper? links,
      h.membersWrappers? rest]

theorem chainWrapper? (h : env.Alike env') : ∀ links : List ClassList.Variant,
    env'.chainWrapper? links = env.chainWrapper? links
  | [] => rfl
  | v :: rest => by
    rw [Environment.chainWrapper?, Environment.chainWrapper?, h.wrapper? v, h.chainWrapper? rest]

end

/-! ## Style trees -/

theorem styleOf (h : env.Alike env') (apply : Text → Report StyleTree)
    (found : ResolvedUtility) : env'.styleOf apply found = env.styleOf apply found := by
  have hexpand : Directive.expand env' apply found.tree = Directive.expand env apply found.tree :=
    Directive.expand_congr h.theme (fun name => h.variant name none) fun _ _ => rfl
  unfold Environment.styleOf
  rw [hexpand]

theorem emit (h : env.Alike env') (mode : Mode) (flags : Flags) (marked : Bool)
    (tree : StyleTree) (out : Evaluated) :
    env'.emit mode flags marked tree out = env.emit mode flags marked tree out := by
  unfold Environment.emit
  rw [h.settings]

/-! ## Class lists -/

mutual

theorem expr (h : env.Alike env') (mode : Mode) (apply : Text → Report StyleTree) :
    ∀ (e : ClassList.Expr) (important : Bool) (out : Evaluated),
      env'.expr mode apply important e out = env.expr mode apply important e out
  | .group _ members marked _, important, out => by
    rw [Environment.expr, Environment.expr, h.exprs mode apply members (important || marked) out]
  | .span _ v none, _, _ => by
    rw [Environment.expr, Environment.expr, h.wrapper? v]
  | .span _ v (some child), important, out => by
    rw [Environment.expr, Environment.expr, h.wrapper? v, h.expr mode apply child important {}]
  | .utility _ head marked, important, out => by
    rw [Environment.expr, Environment.expr, h.utilityOf head]
    simp only [h.styleOf, h.emit]
  | .property _ value marked _, important, out => by
    rw [Environment.expr, Environment.expr, h.theme]
    simp only [h.emit]

theorem exprs (h : env.Alike env') (mode : Mode) (apply : Text → Report StyleTree) :
    ∀ (es : List ClassList.Expr) (important : Bool) (out : Evaluated),
      env'.exprs mode apply important es out = env.exprs mode apply important es out
  | [], _, _ => rfl
  | e :: rest, important, out => by
    rw [Environment.exprs, Environment.exprs, h.expr mode apply e important out]
    exact congrArg _ (funext fun out => h.exprs mode apply rest important out)

end

theorem evaluateIn (h : env.Alike env') (mode : Mode) (apply : Text → Report StyleTree)
    (input : Text) : env'.evaluateIn mode apply input = env.evaluateIn mode apply input := by
  rw [Environment.evaluateIn, Environment.evaluateIn, h.separator, h.exprs]

theorem applyWithin (h : env.Alike env') : ∀ levels,
    env'.applyWithin levels = env.applyWithin levels
  | 0 => funext fun _ => rfl
  | levels + 1 => funext fun classes => by
    rw [Environment.applyWithin, Environment.applyWithin, h.applyWithin levels]
    simp only [h.evaluateIn]

/-- Class lists have the same reports. -/
theorem evaluate (h : env.Alike env') (input : Text) :
    env'.evaluate input = env.evaluate input := by
  unfold Environment.evaluate evaluateWithin
  rw [h.applyWithin, h.evaluateIn]

theorem findUtility (h : env.Alike env') (input : Text) :
    env'.findUtility input = env.findUtility input := by
  unfold Environment.findUtility
  simp only [h.separator, h.utilityOf, h.applyWithin, h.styleOf]

theorem findVariant (h : env.Alike env') (input : Text) :
    env'.findVariant input = env.findVariant input := by
  unfold Environment.findVariant
  simp only [h.separator, h.singleVariant]

theorem wrapExpr (h : env.Alike env') : ∀ (e : ClassList.Expr) (w : Wrapper),
    env'.wrapExpr e w = env.wrapExpr e w
  | .span _ v none, _ => by rw [Environment.wrapExpr, Environment.wrapExpr, h.wrapper? v]
  | .span _ v (some child), _ => by
    rw [Environment.wrapExpr, Environment.wrapExpr, h.wrapper? v]
    exact congrArg _ (funext fun _ => h.wrapExpr child _)
  | .group .., _ => rfl
  | .utility .., _ => rfl
  | .property .., _ => rfl

theorem wrapExprs (h : env.Alike env') : ∀ (es : List ClassList.Expr) (w : Wrapper),
    env'.wrapExprs es w = env.wrapExprs es w
  | [], _ => rfl
  | e :: rest, w => by
    rw [Environment.wrapExprs, Environment.wrapExprs, h.wrapExpr e w]
    exact congrArg _ (funext fun w => h.wrapExprs rest w)

theorem wrapper (h : env.Alike env') (input : Text) :
    env'.wrapper input = env.wrapper input := by
  rw [Environment.wrapper, Environment.wrapper, h.separator, h.wrapExprs]

end Alike

end Environment

/-! ## Another registry -/

namespace Environment

variable (env : Environment) (registry : Registry)

/-- The environment with another registry. -/
def withRegistry : Environment := { env with registry := registry }

@[simp] theorem registry_withRegistry : (env.withRegistry registry).registry = registry := rfl

theorem renderKinds?_withRegistry (u : LookupUtility) (value : Text) (negative pinned : Bool)
    (m : Option ModifierText) : ∀ kinds : List Value.Kind,
      (env.withRegistry registry).renderKinds? u value negative pinned m kinds =
        env.renderKinds? u value negative pinned m kinds
  | [] => rfl
  | kind :: rest => by
    rw [renderKinds?, renderKinds?, renderKinds?_withRegistry u value negative pinned m rest]
    rfl

/-- What a utility makes of a bracketed value does not depend on what else is registered. -/
theorem renderBracketed?_withRegistry (u : LookupUtility) (value : Text) (negative : Bool)
    (m : Option ModifierText) :
    (env.withRegistry registry).renderBracketed? u value negative m =
      env.renderBracketed? u value negative m := by
  unfold renderBracketed?
  simp only [renderKinds?_withRegistry]

end Environment

/-! ## Answers -/

namespace Context

variable {ctx ctx' : Context} (h : ctx.env.Alike ctx'.env) (hstrict : ctx'.strict = ctx.strict)

include hstrict in
theorem answer_of_strict {α : Type} (input : Text) (r : Report α) :
    ctx'.answer input r = ctx.answer input r := by
  rw [answer, answer, hstrict]

include h hstrict

theorem evaluate_of_alike (input : Text) : ctx'.evaluate input = ctx.evaluate input := by
  rw [evaluate, evaluate, h.evaluate, answer_of_strict hstrict]

theorem css_of_alike (input : Text) : ctx'.css input = ctx.css input := by
  have hgathered : ∀ styles, ctx'.gathered styles = ctx.gathered styles := fun styles => by
    rw [gathered, gathered, h.settings]
  rw [css, css, evaluate_of_alike h hstrict]
  simp only [hgathered]

theorem wrap_of_alike (input : Text) : ctx'.wrap input = ctx.wrap input := by
  unfold wrap
  simp only [h.separator, h.wrapper, answer_of_strict hstrict]

end Context
end UtilityCss
