import UtilityCss.ClassList.Tree

/-!
# Moving class lists

A class list that was read off a text is found again, further on, in a longer text that
ends with it.  `shift` moves every slice of it by a number of bytes; nothing else about a
class list depends on where it lies.
-/

namespace UtilityCss

/-- The piece further on by so many bytes. -/
def Slice.shift (n : Nat) (s : Slice) : Slice := ⟨s.start + n, s.text⟩

@[simp] theorem Slice.text_shift (n : Nat) (s : Slice) : (s.shift n).text = s.text := rfl

namespace ClassList

variable (n : Nat)

def Modifier.shift (m : Modifier) : Modifier := { m with slice := m.slice.shift n }

def Head.shift : Head → Head
  | plain name modifier => .plain (name.shift n) (modifier.map (Modifier.shift n))
  | bracketed lead value modifier closed =>
    .bracketed (lead.shift n) (value.shift n) (modifier.map (Modifier.shift n)) closed

mutual

def Variant.shift : Variant → Variant
  | .named source head => .named (source.shift n) (head.shift n)
  | .selector source inner => .selector (source.shift n) (inner.shift n)
  | .group source members => .group (source.shift n) (membersShift members)

def chainShift : List Variant → List Variant
  | [] => []
  | v :: rest => v.shift :: chainShift rest

def membersShift : List (List Variant) → List (List Variant)
  | [] => []
  | links :: rest => chainShift links :: membersShift rest

end

mutual

def Expr.shift : Expr → Expr
  | .group source members important closed =>
    .group (source.shift n) (exprsShift members) important closed
  | .span source variant none => .span (source.shift n) (variant.shift n) none
  | .span source variant (some child) => .span (source.shift n) (variant.shift n) (some child.shift)
  | .utility source head important => .utility (source.shift n) (head.shift n) important
  | .property source value important closed =>
    .property (source.shift n) (value.shift n) important closed

def exprsShift : List Expr → List Expr
  | [] => []
  | e :: rest => e.shift :: exprsShift rest

end

variable {n}

@[simp] theorem Head.modifier_shift (head : Head) :
    (head.shift n).modifier = head.modifier.map (Modifier.shift n) := by
  cases head <;> rfl

@[simp] theorem Head.closed_shift (head : Head) : (head.shift n).closed = head.closed := by
  cases head <;> simp [shift, closed, modifier, Option.all_map, Modifier.shift]

@[simp] theorem Variant.source_shift (v : Variant) : (v.shift n).source = v.source.shift n := by
  cases v <;> rfl

@[simp] theorem Variant.closed_shift (v : Variant) : (v.shift n).closed = v.closed := by
  cases v with
  | named => exact Head.closed_shift _
  | selector => rfl
  | group => rfl

theorem Expr.source_shift : ∀ e : Expr, (e.shift n).source = e.source.shift n
  | .group .. => rfl
  | .span _ _ none => rfl
  | .span _ _ (some _) => rfl
  | .utility .. => rfl
  | .property .. => rfl

/-! ## By nothing -/

theorem Modifier.shift_zero : Modifier.shift 0 = id := rfl

theorem Head.shift_zero (head : Head) : head.shift 0 = head := by
  cases head <;> simp [shift, Slice.shift, Modifier.shift_zero]

mutual

theorem Variant.shift_zero : ∀ v : Variant, v.shift 0 = v
  | .named source head => by rw [Variant.shift, Head.shift_zero]; rfl
  | .selector _ _ => rfl
  | .group source members => by rw [Variant.shift, membersShift_zero]; rfl

theorem chainShift_zero : ∀ links : List Variant, chainShift 0 links = links
  | [] => rfl
  | v :: rest => by rw [chainShift, Variant.shift_zero, chainShift_zero]

theorem membersShift_zero : ∀ members : List (List Variant), membersShift 0 members = members
  | [] => rfl
  | links :: rest => by rw [membersShift, chainShift_zero, membersShift_zero]

end

mutual

theorem Expr.shift_zero : ∀ e : Expr, e.shift 0 = e
  | .group source members important closed => by rw [Expr.shift, exprsShift_zero]; rfl
  | .span source variant none => by rw [Expr.shift, Variant.shift_zero]; rfl
  | .span source variant (some child) => by
    rw [Expr.shift, Variant.shift_zero, Expr.shift_zero]
    rfl
  | .utility source head important => by rw [Expr.shift, Head.shift_zero]; rfl
  | .property _ _ _ _ => rfl

theorem exprsShift_zero : ∀ es : List Expr, exprsShift 0 es = es
  | [] => rfl
  | e :: rest => by rw [exprsShift, Expr.shift_zero, exprsShift_zero]

end

end ClassList
end UtilityCss
