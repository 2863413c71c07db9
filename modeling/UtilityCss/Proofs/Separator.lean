import UtilityCss.Separator
import UtilityCss.Proofs.Text

/-!
# Where a separator is found

A separator holds neither blanks nor the characters that carry structure, so it never
reaches over one of them.  Whether it starts in a text is therefore decided by what
comes before the first such character, and a text in which the separator starts nowhere
stays so whatever the brackets behind it hold.
-/

namespace UtilityCss

namespace Separator

variable (sep : Separator)

/-- The separator that a text makes is that text. -/
theorem text_of_ofText {sep : Separator} {text : Text} (h : ofText text = .ok sep) :
    sep.text = text := by
  unfold ofText at h
  split at h
  · cases h
  · split at h
    · cases h
      rfl
    · cases h

theorem startsIn_iff {t : Text} : sep.startsIn t = true ↔ ∃ u, t = sep.text ++ u :=
  Text.startsWith_iff

/-- A separator holds no blank and no character that carries structure. -/
theorem not_mem_text {ch : Char} (h : separates ch = false) : ch ∉ sep.text := by
  intro hmem
  have := List.all_eq_true.mp sep.all_separate ch hmem
  rw [h] at this
  exact absurd this (by decide)

/-- A separator never reaches over a character that it cannot hold. -/
theorem length_le_of_startsIn {t r : Text} {ch : Char} (hch : separates ch = false)
    (h : sep.startsIn (t ++ ch :: r) = true) : sep.text.length ≤ t.length := by
  obtain ⟨u, hu⟩ := sep.startsIn_iff.mp h
  by_contra hlt
  rw [Nat.not_le] at hlt
  have hget : sep.text[t.length]? = some ch := by
    have hleft : (t ++ ch :: r)[t.length]? = some ch := by simp
    rw [hu, List.getElem?_append_left hlt] at hleft
    exact hleft
  exact sep.not_mem_text hch (List.mem_of_getElem? hget)

/-- What is behind a character that no separator can hold does not matter. -/
theorem startsIn_append_cons {t r : Text} {ch : Char} (hch : separates ch = false) :
    sep.startsIn (t ++ ch :: r) = sep.startsIn t := by
  rw [Bool.eq_iff_iff]
  constructor
  · intro h
    have hle := sep.length_le_of_startsIn hch h
    obtain ⟨u, hu⟩ := sep.startsIn_iff.mp h
    have hsep : sep.text <+: t ++ ch :: r := ⟨u, hu.symm⟩
    obtain ⟨v, hv⟩ := List.prefix_of_prefix_length_le hsep (List.prefix_append t _) hle
    exact sep.startsIn_iff.mpr ⟨v, hv.symm⟩
  · intro h
    obtain ⟨u, rfl⟩ := sep.startsIn_iff.mp h
    exact sep.startsIn_iff.mpr ⟨u ++ ch :: r, by rw [List.append_assoc]⟩

theorem length_pos : 0 < sep.text.length := List.length_pos_of_ne_nil sep.text_ne_nil

@[simp] theorem startsIn_nil : sep.startsIn [] = false := by
  cases h : sep.startsIn [] with
  | false => rfl
  | true =>
    obtain ⟨u, hu⟩ := sep.startsIn_iff.mp h
    exact absurd (List.append_eq_nil_iff.mp hu.symm).1 sep.text_ne_nil

/-- Where the text goes on with such a character there is no separator. -/
theorem startsIn_cons {r : Text} {ch : Char} (hch : separates ch = false) :
    sep.startsIn (ch :: r) = false := by
  rw [← List.nil_append (ch :: r), sep.startsIn_append_cons hch, sep.startsIn_nil]

/-! ## Texts in front of the separator -/

/-- The separator starts nowhere in the text `t` with `r` behind it. -/
def Clear (t r : Text) : Prop := ∀ a b, t = a ++ b → b ≠ [] → sep.startsIn (b ++ r) = false

namespace Clear

variable {sep : Separator} {t u r : Text} {ch : Char}

theorem right (h : sep.Clear (t ++ u) r) : sep.Clear u r := by
  intro a b hab hb
  exact h (t ++ a) b (by rw [hab, List.append_assoc]) hb

/-- Only what comes before a character that no separator can hold matters. -/
theorem left (h : sep.Clear (t ++ ch :: u) r) (hch : separates ch = false) (v : Text) :
    sep.Clear t (ch :: v) := by
  intro a b hab hb
  have := h a (b ++ ch :: u) (by rw [hab, List.append_assoc])
    (List.append_ne_nil_of_left_ne_nil hb _)
  rw [List.append_assoc, List.cons_append, sep.startsIn_append_cons hch] at this
  rw [sep.startsIn_append_cons hch, this]

theorem of_includes (h : Text.includes t sep.text = false)
    (hr : ∀ x v, r = x :: v → separates x = false) : sep.Clear t r := by
  intro a b hab hb
  have hnone : Text.cutAround? sep.text t = none := by
    cases hcut : Text.cutAround? sep.text t with
    | none => rfl
    | some p =>
      rw [Text.includes, hcut] at h
      exact absurd h (by simp)
  have hstarts : sep.startsIn b = false :=
    Text.startsWith_eq_false_of_cutAround?_none hnone a b hab
  cases r with
  | nil => rwa [List.append_nil]
  | cons x v => rwa [sep.startsIn_append_cons (hr x v rfl)]

theorem of_cutAround? (h : Text.cutAround? sep.text (t ++ sep.text) = some (t, [])) (r : Text) :
    sep.Clear t (sep.text ++ r) := by
  intro a b hab hb
  have hfirst := Text.startsWith_eq_false_of_cutAround?_some h a b hab hb
  rw [List.append_nil] at hfirst
  cases hstarts : sep.startsIn (b ++ (sep.text ++ r)) with
  | false => rfl
  | true =>
    obtain ⟨u, hu⟩ := sep.startsIn_iff.mp hstarts
    have hsep : sep.text <+: b ++ sep.text ++ r := ⟨u, by rw [List.append_assoc]; exact hu.symm⟩
    obtain ⟨v, hv⟩ := List.prefix_of_prefix_length_le hsep (List.prefix_append _ r)
      (by rw [List.length_append]; omega)
    rw [Text.startsWith_iff.mpr ⟨v, hv.symm⟩] at hfirst
    exact absurd hfirst (by decide)

end Clear

end Separator
end UtilityCss
