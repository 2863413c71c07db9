import UtilityCss.Proofs.ClassList.Derivation
import UtilityCss.Proofs.ClassList.Shift

/-!
# Chains of variants

The variants in front of an expression make up a spine: each is applied to what is behind
its separator, and the innermost to an expression or to nothing.  A text that consists of
variants alone, each with its separator, is read as a spine with nothing inside, and when
a text with an expression follows, the same variants may come out around that
expression.
-/

namespace UtilityCss

namespace ClassList

/-! ## Spines -/

/-- The variants in front of an expression, the outermost first. -/
def Expr.spine : Expr → List Variant
  | .span _ variant none => [variant]
  | .span _ variant (some child) => variant :: child.spine
  | _ => []

/-- Is there nothing that the innermost variant of the spine is applied to? -/
def Expr.isBare : Expr → Bool
  | .span _ _ none => true
  | .span _ _ (some child) => child.isBare
  | _ => false

mutual

/-- The variant and, if it is a group, the parts of its links. -/
def Variant.parts : Variant → List Variant
  | .group source members => .group source members :: membersParts members
  | v => [v]

def chainParts : List Variant → List Variant
  | [] => []
  | v :: rest => v.parts ++ chainParts rest

def membersParts : List (List Variant) → List Variant
  | [] => []
  | links :: rest => chainParts links ++ membersParts rest

end

/-- An expression, or nothing, with variants around it, the outermost first. -/
inductive Around (inner : Option Expr) : List Variant → Option Expr → Prop where
  | here : Around inner [] inner
  | outside {source : Slice} {v : Variant} {vs : List Variant} {e : Option Expr} :
    Around inner vs e → Around inner (v :: vs) (some (.span source v e))

namespace Around

variable {inner e : Option Expr} {vs ws : List Variant}

/-- Variants around variants are variants around what is inside of both. -/
theorem trans (h : Around e vs inner) : ∀ {ws f}, Around inner ws f → Around e (ws ++ vs) f
  | _, _, .here => h
  | _, _, .outside h' => .outside (h.trans h')

theorem shift (n : Nat) : ∀ {vs e}, Around inner vs e →
    Around (inner.map (Expr.shift n)) (chainShift n vs) (e.map (Expr.shift n))
  | _, _, .here => .here
  | _, _, @outside _ source v vs e h => by
    have hspan : (some (Expr.span source v e)).map (Expr.shift n) =
        some (.span (source.shift n) (v.shift n) (e.map (Expr.shift n))) := by
      cases e <;> rfl
    rw [hspan]
    exact .outside (shift n h)

/-- Only with no variants nothing comes out. -/
theorem eq_nil_of_none (h : Around inner vs none) : vs = [] := by
  cases h
  rfl

theorem spine_eq : ∀ {vs : List Variant} {e : Expr}, Around none vs (some e) →
    e.spine = vs ∧ e.isBare = true
  | _, _, .outside (e := none) h => by
    obtain rfl := h.eq_nil_of_none
    exact ⟨rfl, rfl⟩
  | _, _, .outside (e := some child) h => by
    obtain ⟨hspine, hbare⟩ := spine_eq h
    exact ⟨by rw [Expr.spine, hspine], hbare⟩

end Around

/-- The variants of a spine are laid out in the text of the expression. -/
theorem Expr.Laid.exists_of_mem_spine {sep : Separator} :
    ∀ {e : Expr} {start : Nat} {t after : Text}, e.Laid sep start t after → ∀ v ∈ e.spine,
      ∃ s u, v.Laid sep s u
  | .span _ variant none, _, _, _, ⟨_, tv, _, hlaid⟩, v, hv => by
    rw [List.mem_singleton.mp hv]
    exact ⟨_, tv, hlaid⟩
  | .span _ variant (some child), _, _, _, ⟨_, tv, _, _, hlaid, hchild⟩, v, hv => by
    rcases List.mem_cons.mp hv with rfl | hv
    · exact ⟨_, tv, hlaid⟩
    · exact Expr.Laid.exists_of_mem_spine hchild v hv
  | .group .., _, _, _, _, _, hv => absurd hv List.not_mem_nil
  | .utility .., _, _, _, _, _, hv => absurd hv List.not_mem_nil
  | .property .., _, _, _, _, _, hv => absurd hv List.not_mem_nil

/-- With nothing inside of its spine an expression ends with the separator. -/
theorem Expr.Laid.exists_append_separator {sep : Separator} :
    ∀ {e : Expr} {start : Nat} {t after : Text}, e.Laid sep start t after → e.isBare = true →
      ∃ u, t = u ++ sep.text
  | .span _ _ none, _, _, _, ⟨_, tv, ht, _⟩, _ => ⟨tv, ht⟩
  | .span _ _ (some child), _, _, _, ⟨_, tv, u, ht, _, hchild⟩, hbare => by
    obtain ⟨w, hw⟩ := Expr.Laid.exists_append_separator hchild hbare
    exact ⟨tv ++ sep.text ++ w, by rw [ht, hw, ← List.append_assoc]⟩
  | .group .., _, _, _, _, hbare => absurd hbare Bool.false_ne_true
  | .utility .., _, _, _, _, hbare => absurd hbare Bool.false_ne_true
  | .property .., _, _, _, _, hbare => absurd hbare Bool.false_ne_true

theorem ExprsLaid.exists_of_mem {sep : Separator} :
    ∀ {es : List Expr} {start : Nat} {t after : Text}, ExprsLaid sep start t after es →
      ∀ e ∈ es, ∃ s u r, e.Laid sep s u r
  | e :: _, _, _, _, ⟨_, te, _, _, _, hlaid, hrest⟩, x, hx => by
    rcases List.mem_cons.mp hx with rfl | hx
    · exact ⟨_, te, _, hlaid⟩
    · exact ExprsLaid.exists_of_mem hrest x hx

/-! ## Texts that are chains -/

/-- The text consists of variants, each with the separator behind it. -/
structure IsChain (sep : Separator) (t : Text) (vs : List Variant) : Prop where
  trimmed : Text.trim t = t
  reads : ∃ e : Option Expr, (read sep t).exprs = e.toList ∧ Around none vs e

namespace IsChain

variable {sep : Separator} {t : Text} {vs : List Variant}

/-- A chain of no variants is no text. -/
theorem eq_nil (h : IsChain sep t []) : t = [] := by
  obtain ⟨e, hread, haround⟩ := h.reads
  cases haround
  have hlaid := read_laid sep t
  rw [hread] at hlaid
  exact Text.eq_nil_of_trim h.trimmed (List.nil_append t).symm hlaid

/-- A chain with a variant ends with the separator. -/
theorem exists_append_separator (h : IsChain sep t vs) (hvs : vs ≠ []) :
    ∃ u, t = u ++ sep.text := by
  obtain ⟨e, hread, haround⟩ := h.reads
  cases e with
  | none => exact absurd haround.eq_nil_of_none hvs
  | some e =>
    have hlaid := read_laid sep t
    rw [hread] at hlaid
    obtain ⟨b, te, u, ht, -, he, hblank⟩ := hlaid
    obtain ⟨w, hw⟩ := he.exists_append_separator haround.spine_eq.2
    -- only blanks may be behind the expression, and the text does not end with a blank
    obtain rfl := Text.eq_nil_of_trim h.trimmed ht hblank
    exact ⟨b ++ w, by rw [ht, hw, List.append_nil, List.append_assoc]⟩

theorem ne_nil (h : IsChain sep t vs) (hvs : vs ≠ []) : t ≠ [] := by
  obtain ⟨u, rfl⟩ := h.exists_append_separator hvs
  exact List.append_ne_nil_of_right_ne_nil u sep.text_ne_nil

/-- The separator at its end is there already. -/
theorem closeWith_trim (h : IsChain sep t vs) (hvs : vs ≠ []) :
    sep.closeWith (Text.trim t) = t := by
  have hends : Text.endsWith t sep.text = true :=
    Text.endsWith_iff.mpr (h.exists_append_separator hvs)
  rw [h.trimmed, Separator.closeWith, if_pos hends]

end IsChain

/-- Behind the text `t` what is read off `u` comes out inside of the variants. -/
def ReadsInside (sep : Separator) (t : Text) (vs : List Variant) (u : Text) : Prop :=
  ∃ inner outer : Option Expr, (read sep u).exprs = inner.toList ∧
    (read sep (t ++ u)).exprs = outer.toList ∧
    Around (inner.map (Expr.shift (Text.bytes t))) vs outer

theorem chainShift_eq_map (n : Nat) (vs : List Variant) :
    chainShift n vs = vs.map (Variant.shift n) := by
  induction vs with
  | nil => rfl
  | cons v rest ih => rw [chainShift, ih, List.map_cons]

/-- A chain inside of the variants of another one makes up one chain with it. -/
theorem IsChain.append {sep : Separator} {t u : Text} {vs ws : List Variant}
    (ht : IsChain sep t vs) (hu : IsChain sep u ws) (hinside : ReadsInside sep t vs u) :
    IsChain sep (t ++ u) (vs ++ chainShift (Text.bytes t) ws) := by
  obtain ⟨inner, outer, hinner, houter, haround⟩ := hinside
  obtain ⟨e, he, hws⟩ := hu.reads
  obtain rfl : inner = e := by
    have htoList := hinner.symm.trans he
    cases inner <;> cases e <;> simp_all
  exact ⟨Text.trim_append ht.trimmed hu.trimmed, outer, houter, (hws.shift _).trans haround⟩

end ClassList
end UtilityCss
