import UtilityCss.ClassList.Outline
import UtilityCss.Proofs.ClassList.Shift

/-!
# Outlines of class lists that were moved

An outline says everything about a class list except where its parts lie, so it is the same
for a class list that was moved.
-/

namespace UtilityCss
namespace ClassList

/-! ## Equations -/

theorem Variant.outline_named (source : Slice) (head : Head) :
    (Variant.named source head).outline =
      head.outline "variant" "arbitrary-variant" Head.bare false := rfl

theorem Variant.outline_group (source : Slice) (members : List (List Variant)) :
    (Variant.group source members).outline =
      "(group-variant".toList ++ membersOutline members ++ [')'] := rfl

theorem membersOutline_nil_cons (rest : List (List Variant)) :
    membersOutline ([] :: rest) = " (chain".toList ++ [] ++ ')' :: membersOutline rest := rfl

theorem membersOutline_single (v : Variant) (rest : List (List Variant)) :
    membersOutline ([v] :: rest) = ' ' :: v.outline ++ membersOutline rest := rfl

theorem membersOutline_chain (v w : Variant) (links : List Variant) (rest : List (List Variant)) :
    membersOutline ((v :: w :: links) :: rest) =
      " (chain".toList ++ chainOutline (v :: w :: links) ++ ')' :: membersOutline rest := rfl

theorem chainOutline_cons (v : Variant) (rest : List Variant) :
    chainOutline (v :: rest) = ' ' :: v.outline ++ chainOutline rest := rfl

theorem Expr.outline_group (source : Slice) (members : List Expr) (important closed : Bool) :
    (Expr.group source members important closed).outline =
      "(group".toList ++ marks important closed ++ exprsOutline members ++ [')'] := rfl

theorem Expr.outline_span_none (source : Slice) (v : Variant) :
    (Expr.span source v none).outline = "(span ".toList ++ v.outline ++ [')'] := rfl

theorem Expr.outline_span_some (source : Slice) (v : Variant) (child : Expr) :
    (Expr.span source v (some child)).outline =
      "(span ".toList ++ v.outline ++ ' ' :: child.outline ++ [')'] := rfl

theorem Expr.outline_utility (source : Slice) (head : Head) (important : Bool) :
    (Expr.utility source head important).outline =
      head.outline "class" "arbitrary" Head.written important := rfl

theorem exprsOutline_cons (e : Expr) (rest : List Expr) :
    exprsOutline (e :: rest) = ' ' :: e.outline ++ exprsOutline rest := rfl

/-! ## Moving -/

variable {n : Nat}

theorem Head.modifierOutline_shift (head : Head) :
    (head.shift n).modifierOutline = head.modifierOutline := by
  cases head with
  | plain name m => cases m <;> rfl
  | bracketed lead value m closed => cases m <;> rfl

theorem Head.bare_shift (head : Head) : (head.shift n).bare = head.bare := by
  cases head with
  | plain name m => cases m <;> rfl
  | bracketed lead value m closed => rfl

theorem Head.written_shift (head : Head) : (head.shift n).written = head.written := by
  cases head <;> rfl

theorem Head.outline_shift (plainShape bracketedShape : Text) {nameOf : Head → Text}
    (important : Bool) {head : Head} (h : nameOf (head.shift n) = nameOf head) :
    (head.shift n).outline plainShape bracketedShape nameOf important =
      head.outline plainShape bracketedShape nameOf important := by
  have hmodifier := Head.modifierOutline_shift (n := n) head
  cases head with
  | plain name m =>
    rw [Head.shift] at h hmodifier ⊢
    rw [Head.outline, Head.outline, h, hmodifier]
  | bracketed lead value m closed =>
    rw [Head.shift] at hmodifier ⊢
    rw [Head.outline, Head.outline, hmodifier]
    rfl

mutual

theorem Variant.outline_shift : ∀ v : Variant, (v.shift n).outline = v.outline
  | .named source head => by
    rw [Variant.shift, Variant.outline_named, Variant.outline_named]
    exact Head.outline_shift _ _ false (Head.bare_shift head)
  | .selector source inner => rfl
  | .group source members => by
    rw [Variant.shift, Variant.outline_group, Variant.outline_group, membersOutline_shift members]

theorem membersOutline_shift : ∀ members : List (List Variant),
    membersOutline (membersShift n members) = membersOutline members
  | [] => rfl
  | [] :: rest => by
    rw [membersShift, chainShift, membersOutline_nil_cons, membersOutline_nil_cons,
      membersOutline_shift rest]
  | [v] :: rest => by
    rw [membersShift, chainShift, chainShift, membersOutline_single, membersOutline_single,
      Variant.outline_shift v, membersOutline_shift rest]
  | (v :: w :: links) :: rest => by
    rw [membersShift, chainShift, chainShift, membersOutline_chain, membersOutline_chain,
      chainOutline_cons, chainOutline_cons, chainOutline_cons, chainOutline_cons,
      Variant.outline_shift v, Variant.outline_shift w, chainOutline_shift links,
      membersOutline_shift rest]

theorem chainOutline_shift : ∀ links : List Variant,
    chainOutline (chainShift n links) = chainOutline links
  | [] => rfl
  | v :: rest => by
    rw [chainShift, chainOutline_cons, chainOutline_cons, Variant.outline_shift v,
      chainOutline_shift rest]

end

mutual

/-- An outline does not say where an expression lies. -/
theorem Expr.outline_shift : ∀ e : Expr, (e.shift n).outline = e.outline
  | .group source members important closed => by
    rw [Expr.shift, Expr.outline_group, Expr.outline_group, exprsOutline_shift members]
  | .span source variant none => by
    rw [Expr.shift, Expr.outline_span_none, Expr.outline_span_none, Variant.outline_shift variant]
  | .span source variant (some child) => by
    rw [Expr.shift, Expr.outline_span_some, Expr.outline_span_some, Variant.outline_shift variant,
      Expr.outline_shift child]
  | .utility source head important => by
    rw [Expr.shift, Expr.outline_utility, Expr.outline_utility]
    exact Head.outline_shift _ _ important (Head.written_shift head)
  | .property source value important closed => rfl

theorem exprsOutline_shift : ∀ es : List Expr, exprsOutline (exprsShift n es) = exprsOutline es
  | [] => rfl
  | e :: rest => by
    rw [exprsShift, exprsOutline_cons, exprsOutline_cons, Expr.outline_shift e,
      exprsOutline_shift rest]

end

end ClassList
end UtilityCss
