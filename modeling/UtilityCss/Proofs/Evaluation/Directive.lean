import UtilityCss.Evaluation.Directive
import UtilityCss.Proofs.Evaluation.Report

/-!
# What directives ask for

Expanding a style tree asks nothing of its surroundings but the theme, the variants of screens
and the styles of the class lists that are applied, and these can be listed without expanding
anything.
-/

namespace UtilityCss

namespace Directive

mutual

/-- The class lists that are applied when entries are expanded. -/
def applications : List (Text × StyleValue) → List Text
  | [] => []
  | (key, value) :: rest => entryApplications key value ++ applications rest

/-- The class lists that are applied when an entry is expanded. -/
def entryApplications (key : Text) : StyleValue → List Text
  | .scalar text => (applied? key (.scalar text)).toList
  | .list items => (applied? key (.list items)).toList
  | .tree body =>
    match applied? key (.tree body) with
    | some classes => [classes]
    | none => applications body

end

section

variable {env env' : Environment} {apply apply' : Text → Report StyleTree}

/-- An entry that applies a class list stands for the styles of that. -/
theorem expandEntry_of_applied {key classes : Text} {value : StyleValue} {out : StyleTree}
    (h : applied? key value = some classes) :
    expandEntry env apply key value out = (do return StyleTree.merge out (← apply classes)) := by
  cases value <;> rw [expandEntry, h]

mutual

theorem expandEntries_congr (htheme : env.theme = env'.theme)
    (hvariant : ∀ name, env.variant name none = env'.variant name none) :
    ∀ (entries : List (Text × StyleValue)) (out : StyleTree),
      (∀ t ∈ applications entries, apply t = apply' t) →
        expandEntries env apply entries out = expandEntries env' apply' entries out
  | [], _, _ => rfl
  | (key, value) :: rest, out, h => by
    rw [applications] at h
    have hvalue := expandEntry_congr htheme hvariant key value out fun t ht =>
      h t (List.mem_append_left _ ht)
    have hrest := fun out => expandEntries_congr htheme hvariant rest out fun t ht =>
      h t (List.mem_append_right _ ht)
    rw [expandEntries, expandEntries, hvalue]
    exact bind_congr hrest

theorem expandEntry_congr (htheme : env.theme = env'.theme)
    (hvariant : ∀ name, env.variant name none = env'.variant name none) (key : Text)
    (value : StyleValue) (out : StyleTree)
    (h : ∀ t ∈ entryApplications key value, apply t = apply' t) :
    expandEntry env apply key value out = expandEntry env' apply' key value out := by
  cases hclasses : applied? key value with
  | some classes =>
    have hmem : classes ∈ entryApplications key value := by
      cases value <;> rw [entryApplications, hclasses] <;> exact List.mem_cons_self
    rw [expandEntry_of_applied hclasses, expandEntry_of_applied hclasses, h classes hmem]
  | none =>
    cases value with
    | scalar text => rw [expandEntry, expandEntry, hclasses, htheme]
    | list items => rw [expandEntry, expandEntry, hclasses]
    | tree body =>
      rw [entryApplications, hclasses] at h
      rw [expandEntry, expandEntry, hclasses, expandEntries_congr htheme hvariant body [] h]
      simp only [hvariant]

end

/-- A tree is expanded alike wherever the theme, the variants and the styles of the class lists
that it applies are the same. -/
theorem expand_congr (htheme : env.theme = env'.theme)
    (hvariant : ∀ name, env.variant name none = env'.variant name none) {tree : StyleTree}
    (h : ∀ t ∈ applications tree, apply t = apply' t) :
    expand env apply tree = expand env' apply' tree := by
  unfold expand
  rw [expandEntries_congr htheme hvariant tree [] h]

end

end Directive
end UtilityCss
