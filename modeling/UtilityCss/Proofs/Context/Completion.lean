import UtilityCss.Proofs.Evaluation.Fault

/-!
# Class lists that break off

A class list may break off inside of a bracket or a group.  Closing what is open at the end
does not change what lies in the brackets, and a lenient context evaluates the one like
the other, with one exception.  The modifier of a plain name is taken off the name by its
length with both brackets.  Where the closing one is missing that is one byte too many:
the name loses its last character with the modifier, or is torn if that character takes
more than a byte.
-/

namespace UtilityCss

/-! ## Closing what is open -/

namespace ClassList

/-- The modifier with its bracket closed. -/
def Modifier.complete (m : Modifier) : Modifier := { m with closed := true }

/-- The second head is the first one with its brackets closed by brackets of `c`. -/
inductive Head.Completed (c : Text) : Head → Head → Prop where
  | closed {head : Head} : head.closed = true → Head.Completed c head head
  | plain {name : Slice} {m : Modifier} {close : Char} : m.closed = false → close ∈ c →
    Head.Completed c (.plain name (some m))
      (.plain ⟨name.start, name.text ++ [close]⟩ (some m.complete))
  | bracketed {lead value : Slice} {m : Option Modifier} {closed : Bool} :
    Head.Completed c (.bracketed lead value m closed)
      (.bracketed lead value (m.map Modifier.complete) true)

mutual

/-- The second expression is the first one with its brackets closed by brackets of `c`: names,
what lies in brackets, modifiers, variants, marks of importance and nesting are the
same. -/
inductive Expr.Completed (c : Text) : Expr → Expr → Prop where
  | utility {source source' : Slice} {head head' : Head} {important : Bool} :
    head.Completed c head' →
    Expr.Completed c (.utility source head important) (.utility source' head' important)
  | property {source source' value : Slice} {important closed : Bool} :
    Expr.Completed c (.property source value important closed)
      (.property source' value important true)
  | group {source source' : Slice} {members members' : List Expr} {important closed : Bool} :
    ExprsCompleted c members members' →
    Expr.Completed c (.group source members important closed)
      (.group source' members' important true)
  | bare {source source' : Slice} {variant : Variant} :
    Expr.Completed c (.span source variant none) (.span source' variant none)
  | span {source source' : Slice} {variant : Variant} {child child' : Expr} :
    Expr.Completed c child child' →
    Expr.Completed c (.span source variant (some child)) (.span source' variant (some child'))

inductive ExprsCompleted (c : Text) : List Expr → List Expr → Prop where
  | nil : ExprsCompleted c [] []
  | cons {e e' : Expr} {rest rest' : List Expr} : e.Completed c e' → ExprsCompleted c rest rest' →
    ExprsCompleted c (e :: rest) (e' :: rest')

end

end ClassList

namespace Report

variable {α β : Type}

/-- The reports differ in their notes at most. -/
def Agrees (r r' : Report α) : Prop := r.value = r'.value ∧ r.torn = r'.torn

theorem Agrees.refl (r : Report α) : r.Agrees r := ⟨rfl, rfl⟩

theorem Agrees.bind {r r' : Report α} {f g : α → Report β} (h : r.Agrees r')
    (hfg : ∀ a, (f a).Agrees (g a)) : (r >>= f).Agrees (r' >>= g) := by
  obtain ⟨hvalue, htorn⟩ := h
  obtain ⟨hvalue', htorn'⟩ := hfg r.value
  refine ⟨?_, ?_⟩
  · rw [value_bind, value_bind, hvalue', hvalue]
  · rw [torn_bind, torn_bind, htorn', htorn, hvalue]

theorem agrees_noteIf (condition condition' : Bool) (kind : DiagnosticKind) (slice slice' : Slice) :
    (noteIf condition kind slice).Agrees (noteIf condition' kind slice') := by
  cases condition <;> cases condition' <;> exact ⟨rfl, rfl⟩

end Report

namespace Environment

open ClassList

variable {env : Environment} {c : Text}

/-- What a name comes to for whoever takes no notes: a utility, nothing, or no answer where the name
is torn. -/
def outcome : Except Failure ResolvedUtility → Option (Option ResolvedUtility)
  | .ok found => some (some found)
  | .error .torn => none
  | .error _ => some none

variable (env c) in
/-- If the part is a utility whose name has an open modifier, its name comes to the same with the
modifier closed. -/
def Indifferent (n : Node) : Prop :=
  ∀ name m important, n.shape = .utility (.plain name (some m)) important → m.closed = false →
    ∀ close ∈ c, outcome (env.utility name.text (some m.written)) =
      outcome (env.utility (name.text ++ [close]) (some m.written))

theorem outcome_completed {source : Slice} {closed important : Bool} {head head' : Head}
    (h : head.Completed c head')
    (hnames : env.Indifferent c ⟨source, closed, .utility head important⟩) :
    outcome (env.utilityOf head) = outcome (env.utilityOf head') := by
  cases h with
  | closed => rfl
  | plain hclosed hclose => exact hnames _ _ _ rfl hclosed _ hclose
  | @bracketed lead value m closed =>
    cases m <;> rfl

section

variable {mode : Mode} {apply : Text → Report StyleTree}

/-- A utility is evaluated by what its name comes to. -/
theorem agrees_utility {source source' : Slice} {head head' : Head}
    (h : outcome (env.utilityOf head) = outcome (env.utilityOf head')) (marked important : Bool)
    (out : Evaluated) :
    (env.expr mode apply important (.utility source head marked) out).Agrees
      (env.expr mode apply important (.utility source' head' marked) out) := by
  rw [expr, expr]
  refine (Report.agrees_noteIf ..).bind fun _ => ?_
  cases hfound : env.utilityOf head with
  | ok found =>
    rw [hfound] at h
    cases hfound' : env.utilityOf head' with
    | ok found' =>
      rw [hfound'] at h
      obtain rfl : found = found' := Option.some.inj (Option.some.inj h)
      exact .refl _
    | error failure =>
      rw [hfound'] at h
      cases failure <;> exact absurd h (by simp [outcome])
  | error failure =>
    rw [hfound] at h
    cases hfound' : env.utilityOf head' with
    | ok found' =>
      rw [hfound'] at h
      cases failure <;> exact absurd h (by simp [outcome])
    | error failure' =>
      rw [hfound'] at h
      cases failure <;> cases failure' <;>
        first | exact ⟨rfl, rfl⟩ | exact absurd h (by simp [outcome])

mutual

/-- An expression and its completion are evaluated alike, but for the notes. -/
theorem agrees_expr : ∀ {e e' : ClassList.Expr} {first : Nat}, e.Completed c e' →
    (∀ n ∈ e.listing first, env.Indifferent c n) → ∀ (important : Bool) (out : Evaluated),
      (env.expr mode apply important e out).Agrees (env.expr mode apply important e' out)
  | _, _, first, .utility hhead, hnames, important, out => by
    have hself := hnames _ (List.Mem.head _)
    exact agrees_utility (outcome_completed hhead hself) _ important out
  | _, _, _, .property, _, important, out => by
    rw [expr, expr]
    refine (Report.agrees_noteIf ..).bind fun _ => ?_
    split <;> exact ⟨rfl, rfl⟩
  | _, _, first, .group hmembers, hnames, important, out => by
    rw [expr, expr]
    refine (Report.agrees_noteIf ..).bind fun _ => ?_
    exact agrees_exprs hmembers (fun n hn => hnames n (List.mem_append_left _ hn)) _ out
  | _, _, _, .bare, _, important, out => by
    rw [expr, expr]
    exact .refl _
  | _, _, first, .span hchild, hnames, important, out => by
    have ih := agrees_expr hchild (fun n hn =>
      hnames n (List.mem_append_left _ (List.mem_append_right _ hn))) important {}
    rw [expr, expr]
    refine (Report.Agrees.refl _).bind fun w => ih.bind fun inner => ?_
    exact .refl _

theorem agrees_exprs : ∀ {es es' : List ClassList.Expr} {first : Nat}, ExprsCompleted c es es' →
    (∀ n ∈ (exprsListing first es).1, env.Indifferent c n) → ∀ (important : Bool) (out : Evaluated),
      (env.exprs mode apply important es out).Agrees (env.exprs mode apply important es' out)
  | _, _, _, .nil, _, _, _ => .refl _
  | _, _, first, .cons he hrest, hnames, important, out => by
    rw [exprs, exprs]
    refine (agrees_expr he (fun n hn => hnames n (List.mem_append_left _ hn)) important out).bind
      fun out' => ?_
    exact agrees_exprs hrest (fun n hn => hnames n (List.mem_append_right _ hn)) important out'

end

end

end Environment

namespace Context

open ClassList

/-- A lenient context answers alike on reports that differ in their notes at most. -/
theorem answer_of_agrees {ctx : Context} {α : Type} {input input' : Text} {r r' : Report α}
    (hlenient : ctx.strict = false) (h : r.Agrees r') :
    ctx.answer input r = ctx.answer input' r' := by
  unfold answer Report.lenient
  rw [hlenient, h.1, h.2]
  rfl

/-- In a lenient context a class list that breaks off compiles to what it compiles to with
everything closed, if closing a modifier makes no difference to the name it is on.  That is
so in particular if no name ends in an open modifier. -/
theorem css_completed (ctx : Context) (hlenient : ctx.strict = false) (s c : Text)
    (h : ExprsCompleted c (read ctx.env.separator s).exprs (read ctx.env.separator (s ++ c)).exprs)
    (hnames : ∀ n ∈ (read ctx.env.separator s).listing, ctx.env.Indifferent c n) :
    ctx.css s = ctx.css (s ++ c) := by
  have hagrees : (ctx.env.evaluate s).Agrees (ctx.env.evaluate (s ++ c)) :=
    Environment.agrees_exprs h (fun n hn => hnames n (List.mem_append_left _ hn)) false {}
  have hevaluate : ctx.evaluate s = ctx.evaluate (s ++ c) := answer_of_agrees hlenient hagrees
  rw [css, css, hevaluate]

/-- A bracketed value in a group, and both closed. -/
theorem css_completed_group :
    let settings : Settings := ⟨[':'], [], .all false, .media, []⟩
    let ctx : Context := ⟨⟨⟨.null⟩, settings, .colon, .empty⟩, [], false⟩
    ctx.css ['(', 'b', '-', '[', 'x'] = ctx.css ['(', 'b', '-', '[', 'x', ']', ')'] := by
  intro settings ctx
  have hopen : (read .colon ['(', 'b', '-', '[', 'x']).exprs =
      [.group ⟨0, ['(', 'b', '-', '[', 'x']⟩
        [.utility ⟨1, ['b', '-', '[', 'x']⟩ (.bracketed ⟨1, ['b']⟩ ⟨4, ['x']⟩ none false) false]
        false false] := rfl
  have hclosed : (read .colon ['(', 'b', '-', '[', 'x', ']', ')']).exprs =
      [.group ⟨0, ['(', 'b', '-', '[', 'x', ']', ')']⟩
        [.utility ⟨1, ['b', '-', '[', 'x', ']']⟩ (.bracketed ⟨1, ['b']⟩ ⟨4, ['x']⟩ none true) false]
        false true] := rfl
  refine css_completed ctx rfl ['(', 'b', '-', '[', 'x'] [']', ')'] ?_ ?_
  · show ExprsCompleted _ (read .colon ['(', 'b', '-', '[', 'x']).exprs
      (read .colon ['(', 'b', '-', '[', 'x', ']', ')']).exprs
    rw [hopen, hclosed]
    exact .cons (.group (.cons (.utility .bracketed) .nil)) .nil
  · -- there is no plain name
    intro n hn name m important hshape
    have hlisting : (read .colon ['(', 'b', '-', '[', 'x']).listing.all
        (fun n => n.shape.head?.all fun head => head matches .bracketed ..) = true := rfl
    have hhead := List.all_eq_true.mp hlisting n hn
    rw [hshape] at hhead
    exact absurd hhead Bool.false_ne_true

/-- A name whose modifier is open loses the value, of one character, that it has with the modifier
closed. -/
theorem css_completed_modifier :
    let utility : LookupUtility :=
      ⟨[(['x'], .text ['1'])], [.any], .standard, fun text _ => [(['w'], .scalar text)], none⟩
    let registry : Registry := ⟨[(['b'], [⟨[], .lookup utility⟩])], [], []⟩
    let settings : Settings := ⟨[':'], [], .all false, .media, []⟩
    let ctx : Context := ⟨⟨⟨.null⟩, settings, .colon, registry⟩, [], false⟩
    let s : Text := ['b', '-', 'x', '/', '[', 'y']
    ExprsCompleted [']'] (read .colon s).exprs (read .colon (s ++ [']'])).exprs ∧
      ctx.css s = .ok [] ∧ ctx.css (s ++ [']']) = .ok [(['w'], .scalar ['1'])] := by
  intro utility registry settings ctx s
  have hopen : (read .colon s).exprs =
      [.utility ⟨0, s⟩ (.plain ⟨0, s⟩ (some ⟨⟨5, ['y']⟩, true, false⟩)) false] := rfl
  have hclosed : (read .colon (s ++ [']'])).exprs =
      [.utility ⟨0, s ++ [']']⟩
        (.plain ⟨0, s ++ [']']⟩ (some ⟨⟨5, ['y']⟩, true, true⟩)) false] := rfl
  refine ⟨?_, by decide, by decide⟩
  rw [hopen, hclosed]
  exact .cons (.utility (.plain rfl List.mem_cons_self)) .nil

end Context
end UtilityCss
