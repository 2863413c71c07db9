import UtilityCss.Proofs.Evaluation.Directive
import UtilityCss.Proofs.Evaluation.WellKeyed
import UtilityCss.Proofs.Style.Commutation

/-!
# What entries add

The entries of a tree are expanded one after the other into what is there, and each adds the same
whatever that is.  So a tree with its directives expanded is what its entries add, merged in
order; and a name in it is torn if one is torn in an entry.
-/

namespace UtilityCss

open StyleTree (WellKeyed WellKeyedValue)

namespace Directive

variable (env : Environment) (apply : Text → Report StyleTree)

/-! ## Entries -/

/-- What an entry adds when it is expanded. -/
def added (key : Text) (value : StyleValue) : StyleTree :=
  (expandEntry env apply key value []).value

/-- Does the entry apply a class list with a torn name? -/
def tears (key : Text) (value : StyleValue) : Bool := (expandEntry env apply key value []).torn

/-- A tree with its directives expanded. -/
def expanded (tree : StyleTree) : StyleTree := (expand env apply tree).value

/-- What the entries of a tree add, in order. -/
def additions (tree : StyleTree) : List StyleTree := tree.map fun e => added env apply e.1 e.2

/-- A value with its theme calls replaced and the directives in it expanded. -/
def rendered : StyleValue → StyleValue
  | .scalar text => .scalar (env.theme.renderCalls text)
  | .list items => .list items
  | .tree entries => .tree (expanded env apply entries)

/-- What is nested in the variant of a screen. -/
def screened (name : Text) (inner : StyleTree) : StyleTree :=
  match env.variant name none with
  | .ok found => found.wrapper.apply inner
  | .error _ => []

variable {env apply} {key : Text}

/-- A declaration is written under its key, unless that is the key of a screen. -/
theorem expandEntry_declaration {value : StyleValue} (h : applied? key value = none)
    (hvalue : value.isTree = false) (out : StyleTree) : expandEntry env apply key value out =
      pure (StyleTree.merge out
        (if (screen? key).isSome then [] else [(key, rendered env apply value)])) := by
  have hmerge : ∀ v : StyleValue, v.isTree = false →
      Keyed.put key v out = StyleTree.merge out [(key, v)] := by
    intro v hv
    show _ = StyleTree.overlay [(key, v)] out
    rw [StyleTree.overlay_cons_eq]
    cases v with
    | tree entries => exact absurd hv (Ne.symm Bool.false_ne_true)
    | scalar text => cases out.lookup key <;> rfl
    | list items => cases out.lookup key <;> rfl
  cases value with
  | tree entries => exact absurd hvalue (Ne.symm Bool.false_ne_true)
  | scalar text =>
    rw [expandEntry, h]
    dsimp only
    rw [hmerge _ rfl]
    split <;> rfl
  | list items =>
    rw [expandEntry, h]
    dsimp only
    rw [hmerge _ rfl]
    split <;> rfl

theorem added_declaration {value : StyleValue} (h : applied? key value = none)
    (hvalue : value.isTree = false) : added env apply key value =
      if (screen? key).isSome then [] else [(key, rendered env apply value)] := by
  rw [added, expandEntry_declaration h hvalue]
  split <;> rfl

theorem isTree_rendered (value : StyleValue) :
    (rendered env apply value).isTree = value.isTree := by
  cases value <;> rfl

/-- What is nested is expanded first, and then stands under its key or in the variant of a
screen. -/
theorem expandEntry_tree {body : StyleTree} (h : applied? key (.tree body) = none)
    (out : StyleTree) : expandEntry env apply key (.tree body) out = (do
      let inner ← expand env apply body
      return StyleTree.merge out
        (match screen? key with
        | none => StyleTree.nest key inner
        | some name => screened env name inner)) := by
  rw [expandEntry, h]
  unfold expand
  dsimp only
  unfold screened
  cases screen? key with
  | none => split <;> rfl
  | some name =>
    cases hfound : env.variant name none <;> simp only [hfound] <;> split <;> rfl

/-! ### Entries without directives -/

/-- A text without a theme call is left as it is. -/
theorem renderCalls_eq_self (theme : Theme) {t : Text} (h : Text.includes t "theme(" = false) :
    theme.renderCalls t = t := by
  have hfind : ∀ (t before : Text), Text.cutAround? "theme(" t = none →
      Theme.findCall? before t = none := by
    intro t
    induction t with
    | nil => exact fun _ _ => rfl
    | cons c t ih =>
      intro before hcut
      rw [Text.cutAround?] at hcut
      rw [Theme.findCall?, Text.startsWith]
      split at hcut
      · exact absurd hcut (Option.some_ne_none _)
      · rename_i hdrop
        rw [hdrop, Option.isSome_none, Bool.false_and, if_neg Bool.false_ne_true]
        exact ih _ (Option.map_eq_none_iff.mp hcut)
  rw [Text.includes, Option.isSome_eq_false_iff, Option.isNone_iff_eq_none] at h
  rw [Theme.renderCalls, Theme.renderWithin, hfind t [] h]

/-- An entry without anything to expand adds itself. -/
theorem expandEntry_of_not_needed {value : StyleValue} (happly : Text.startsWith key "@apply" = false)
    (hscreen : Text.startsWith key "@screen " = false) (hvalue : isNeededIn value = false)
    (out : StyleTree) :
    expandEntry env apply key value out = pure (StyleTree.merge out [(key, value)]) := by
  rw [Text.startsWith, Option.isSome_eq_false_iff, Option.isNone_iff_eq_none] at happly hscreen
  have hclasses : applied? key value = none := by
    unfold applied?
    rw [happly]
  have hname : screen? key = none := by rw [screen?, hscreen]; rfl
  cases value with
  | scalar text =>
    rw [expandEntry_declaration hclasses rfl, hname, rendered, renderCalls_eq_self _ hvalue]
    rfl
  | list items =>
    rw [expandEntry_declaration hclasses rfl, hname]
    rfl
  | tree body =>
    have hneeded : isNeeded body = false := hvalue
    rw [expandEntry_tree hclasses, hname, expand, if_neg (by rw [hneeded]; exact Bool.false_ne_true)]
    rfl

/-- A tree without anything to expand is what its entries add, and nothing in it is torn. -/
theorem additions_of_not_needed : ∀ {tree : List (Text × StyleValue)}, isNeeded tree = false →
    additions env apply tree = tree.map (fun e => [e]) ∧
      tree.any (fun e => tears env apply e.1 e.2) = false
  | [], _ => ⟨rfl, rfl⟩
  | (key, value) :: rest, h => by
    rw [isNeeded, Bool.or_eq_false_iff, Bool.or_eq_false_iff, Bool.or_eq_false_iff] at h
    obtain ⟨⟨⟨happly, hscreen⟩, hvalue⟩, hrest⟩ := h
    obtain ⟨hadditions, htears⟩ := additions_of_not_needed hrest
    have hentry : expandEntry env apply key value [] = pure [(key, value)] :=
      expandEntry_of_not_needed happly hscreen hvalue []
    constructor
    · show added env apply key value :: additions env apply rest = _
      rw [added, hentry, hadditions]
      rfl
    · rw [List.any_cons, tears, hentry, htears]
      rfl

/-! ### One after the other -/

section

variable (hregistry : env.registry.WellKeyed) (happly : ∀ t, WellKeyed (apply t).value)
include hregistry happly

theorem wellKeyed_added (key : Text) {value : StyleValue} (hvalue : WellKeyedValue value) :
    WellKeyed (added env apply key value) :=
  Environment.wellKeyed_expandEntry hregistry happly key hvalue WellKeyed.nil

theorem wellKeyed_expanded {tree : StyleTree} (htree : WellKeyed tree) :
    WellKeyed (expanded env apply tree) := by
  unfold expanded expand
  split
  · exact Environment.wellKeyed_expandEntries hregistry happly htree WellKeyed.nil
  · exact htree

/-- What is nested stands under its key or in the variant of a screen. -/
theorem added_tree {body : StyleTree} (hbody : WellKeyed body)
    (h : applied? key (.tree body) = none) : added env apply key (.tree body) =
      match screen? key with
      | none => StyleTree.nest key (expanded env apply body)
      | some name => screened env name (expanded env apply body) := by
  have hkeyed := wellKeyed_expanded hregistry happly hbody
  have hscreened : ∀ name, WellKeyed (screened env name (expanded env apply body)) := by
    intro name
    unfold screened
    cases hfound : env.variant name none with
    | error failure => exact WellKeyed.nil
    | ok found =>
      have hresolution : env.Resolution (env.variant name none) :=
        Environment.resolution_variant (by simp [Reading.stripModifier?])
      rw [hfound] at hresolution
      exact hkeyed.wrapped (hresolution.keepsKeys hregistry)
  rw [added, expandEntry_tree h]
  show StyleTree.merge [] _ = _
  cases screen? key with
  | none => exact StyleTree.nil_merge (hkeyed.nest key).distinct
  | some name => exact StyleTree.nil_merge (hscreened name).distinct

/-- What is no directive stands under its key. -/
theorem added_plain {value : StyleValue} (hvalue : WellKeyedValue value)
    (h : applied? key value = none) (hscreen : screen? key = none) :
    added env apply key value = [(key, rendered env apply value)] := by
  cases value with
  | tree body => rw [added_tree hregistry happly hvalue h, hscreen]; rfl
  | scalar text => rw [added_declaration h rfl, hscreen]; rfl
  | list items => rw [added_declaration h rfl, hscreen]; rfl

/-- An entry adds the same to whatever is there. -/
theorem value_expandEntry (key : Text) {value : StyleValue} (hvalue : WellKeyedValue value)
    (out : StyleTree) : (expandEntry env apply key value out).value =
      StyleTree.merge out (added env apply key value) := by
  have hkeyed := wellKeyed_added hregistry happly key hvalue
  cases hclasses : applied? key value with
  | some classes =>
    rw [added, expandEntry_of_applied hclasses, expandEntry_of_applied hclasses]
    show StyleTree.merge out _ = StyleTree.merge out (StyleTree.merge [] (apply classes).value)
    rw [StyleTree.nil_merge (happly classes).distinct]
  | none =>
    cases value with
    | tree body =>
      rw [added_tree hregistry happly hvalue hclasses, expandEntry_tree hclasses]
      rfl
    | scalar text =>
      rw [added, expandEntry_declaration hclasses rfl, expandEntry_declaration hclasses rfl]
      split <;> rfl
    | list items =>
      rw [added, expandEntry_declaration hclasses rfl, expandEntry_declaration hclasses rfl]
      split <;> rfl

/-- What entries add is merged in one after the other. -/
theorem value_expandEntries : ∀ {entries : List (Text × StyleValue)}, WellKeyed entries →
    ∀ out : StyleTree, (expandEntries env apply entries out).value =
      (additions env apply entries).foldl StyleTree.merge out
  | [], _, _ => rfl
  | (key, value) :: rest, ⟨_, hvalue, hrest⟩, out => by
    rw [expandEntries, Report.value_bind, value_expandEntry hregistry happly key hvalue,
      value_expandEntries hrest]
    rfl

/-- A tree with its directives expanded is what its entries add. -/
theorem expanded_eq {tree : StyleTree} (htree : WellKeyed tree) :
    expanded env apply tree = (additions env apply tree).foldl StyleTree.merge [] := by
  unfold expanded expand
  split
  · exact value_expandEntries hregistry happly htree []
  · rename_i hneeded
    rw [(additions_of_not_needed (Bool.eq_false_iff.mpr hneeded)).1,
      StyleTree.foldl_merge_entries, StyleTree.nil_merge htree.distinct]
    rfl

theorem wellKeyed_of_mem_additions {tree : StyleTree} (htree : WellKeyed tree) :
    ∀ t ∈ additions env apply tree, WellKeyed t := by
  intro t ht
  obtain ⟨e, he, rfl⟩ := List.mem_map.mp ht
  exact wellKeyed_added hregistry happly e.1 ((StyleTree.wellKeyed_iff.mp htree).2 e he)

/-- What is merged in entry by entry may be merged first, if it agrees on where something is
nested. -/
theorem foldl_additions {tree : StyleTree} (htree : WellKeyed tree)
    (hagree : (additions env apply tree).Pairwise StyleTree.Agree) (base : StyleTree) :
    (additions env apply tree).foldl StyleTree.merge base =
      StyleTree.merge base (expanded env apply tree) := by
  rw [expanded_eq hregistry happly htree]
  exact StyleTree.foldl_merge (wellKeyed_of_mem_additions hregistry happly htree) hagree base

end

theorem additions_append (s t : StyleTree) :
    additions env apply (s ++ t) = additions env apply s ++ additions env apply t :=
  List.map_append

/-! ### Torn names -/

theorem torn_expandEntry (key : Text) (value : StyleValue) (out : StyleTree) :
    (expandEntry env apply key value out).torn = tears env apply key value := by
  unfold tears
  cases hclasses : applied? key value with
  | some classes => rw [expandEntry_of_applied hclasses, expandEntry_of_applied hclasses]; rfl
  | none =>
    cases value with
    | tree body => rw [expandEntry_tree hclasses, expandEntry_tree hclasses]; rfl
    | scalar text =>
      rw [expandEntry_declaration hclasses rfl, expandEntry_declaration hclasses rfl]; rfl
    | list items =>
      rw [expandEntry_declaration hclasses rfl, expandEntry_declaration hclasses rfl]; rfl

/-- A tree holds a torn name if one of its entries does. -/
theorem torn_expand (tree : StyleTree) : (expand env apply tree).torn =
    tree.any fun e => tears env apply e.1 e.2 := by
  have hentries : ∀ (entries : List (Text × StyleValue)) (out : StyleTree),
      (expandEntries env apply entries out).torn =
        entries.any fun e => tears env apply e.1 e.2 := by
    intro entries
    induction entries with
    | nil => exact fun _ => rfl
    | cons entry rest ih =>
      intro out
      rw [expandEntries, Report.torn_bind, torn_expandEntry, ih, List.any_cons]
  unfold expand
  split
  · exact hentries tree []
  · rename_i hneeded
    rw [(additions_of_not_needed (Bool.eq_false_iff.mpr hneeded)).2]
    rfl

theorem tears_of_applied {value : StyleValue} {classes : Text}
    (h : applied? key value = some classes) :
    tears env apply key value = (apply classes).torn := by
  rw [tears, expandEntry_of_applied h]
  exact Bool.or_false _

theorem tears_declaration {value : StyleValue} (h : applied? key value = none)
    (hvalue : value.isTree = false) : tears env apply key value = false := by
  rw [tears, expandEntry_declaration h hvalue]
  rfl

theorem tears_tree {body : StyleTree} (h : applied? key (.tree body) = none) :
    tears env apply key (.tree body) = body.any fun e => tears env apply e.1 e.2 := by
  rw [tears, expandEntry_tree h, ← torn_expand]
  exact Bool.or_false _

end Directive
end UtilityCss
