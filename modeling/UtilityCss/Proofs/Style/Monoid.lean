import UtilityCss.Proofs.Style.Agreement

/-!
# The monoid of style trees

Merging has the empty tree for its neutral element, merging a tree into itself changes nothing, and
trees that agree on where something is nested may be merged in any grouping.  All of this is about
ordered trees: the two sides have the same keys in the same order, at every level.

What merging makes of a level is said by one equation, `nested?_merge`.  A declaration of the tree
that is merged in cuts off everything below it; elsewhere a level of the outcome is the merge of
the levels of the two trees, where they have one.  So the order of the keys at the top is their
order at every level.
-/

namespace UtilityCss
namespace StyleTree

/-- The tree that is nested at a path. -/
def nested? : List Text → StyleTree → Option StyleTree
  | [], tree => some tree
  | key :: path, tree =>
    match tree.lookup key with
    | some (.tree entries) => nested? path entries
    | _ => none

/-- Does a declaration stand at the path or on the way there? -/
def declares : List Text → StyleTree → Bool
  | [], _ => false
  | key :: path, tree =>
    match tree.lookup key with
    | some (.tree entries) => declares path entries
    | some _ => true
    | none => false

/-- The keys of the tree that is nested at a path; there are none if nothing is nested there. -/
def keysAt (path : List Text) (tree : StyleTree) : List Text :=
  ((nested? path tree).map Keyed.keys).getD []

variable {a b c : StyleTree} {path : List Text}

/-! ## Levels -/

/-- Below a declaration nothing is nested. -/
theorem nested?_eq_none_of_declares : ∀ {path : List Text} {tree : StyleTree},
    declares path tree = true → nested? path tree = none
  | [], _, h => Bool.noConfusion h
  | key :: path, tree, h => by
    rw [declares] at h
    rw [nested?]
    split at h
    · rename_i entries hkey
      rw [hkey]
      exact nested?_eq_none_of_declares h
    · rename_i value hvalue hkey
      rw [hkey]
      cases value with
      | tree entries => exact absurd rfl (hvalue entries)
      | scalar text => rfl
      | list items => rfl
    · exact Bool.noConfusion h

/-- What is nested in a tree has no key twice either. -/
theorem WellKeyed.nested : ∀ {path : List Text} {tree entries : StyleTree}, WellKeyed tree →
    nested? path tree = some entries → WellKeyed entries
  | [], _, _, h, hentries => Option.some.inj hentries ▸ h
  | key :: path, tree, entries, h, hentries => by
    rw [nested?] at hentries
    split at hentries
    · rename_i below hkey
      exact WellKeyed.nested (h.value hkey) hentries
    · cases hentries

/-- A level that is laid over nothing stays as it is. -/
theorem ite_declares (path : List Text) (tree : StyleTree) :
    (if declares path tree then none else Option.merge merge none (nested? path tree)) =
      nested? path tree := by
  split
  · rename_i hdeclares
    exact (nested?_eq_none_of_declares hdeclares).symm
  · cases nested? path tree <;> rfl

/-- A level of merged trees is the merge of their levels, unless a declaration of the second one
comes in the way. -/
theorem nested?_merge : ∀ {path : List Text} {a b : StyleTree}, WellKeyed b →
    nested? path (merge a b) =
      if declares path b then none else Option.merge merge (nested? path a) (nested? path b)
  | [], _, _, _ => rfl
  | key :: path, a, b, hb => by
    rw [nested?, merge, lookup_overlay hb.distinct]
    cases hkey : b.lookup key with
    | none =>
      simp only [nested?, declares, hkey]
      exact Option.merge_none_right.symm
    | some value =>
      cases value with
      | scalar text =>
        rw [declares, hkey]
        cases a.lookup key <;> rfl
      | list items =>
        rw [declares, hkey]
        cases a.lookup key <;> rfl
      | tree entries =>
        have hentries : WellKeyed entries := hb.value hkey
        simp only [nested?, declares, hkey]
        cases a.lookup key with
        | none => exact (ite_declares path entries).symm
        | some previous =>
          cases previous with
          | tree below => exact nested?_merge hentries
          | scalar text => exact (ite_declares path entries).symm
          | list items => exact (ite_declares path entries).symm

/-- Merging nests something where the second tree does, and where the first does and the second
declares nothing. -/
theorem isSome_nested?_merge (hb : WellKeyed b) :
    (nested? path (merge a b)).isSome ↔
      (nested? path b).isSome ∨ (nested? path a).isSome ∧ declares path b = false := by
  rw [nested?_merge hb]
  cases hdeclares : declares path b with
  | true => simp [nested?_eq_none_of_declares hdeclares]
  | false => cases nested? path a <;> cases nested? path b <;> simp [Option.merge]

/-- The keys of a level are those of the first tree, followed by the new ones of the second. -/
theorem keys_of_nested?_merge (hb : WellKeyed b) {entries : StyleTree}
    (h : nested? path (merge a b) = some entries) :
    Keyed.keys entries = keysAt path a ++ (keysAt path b).filter (· ∉ keysAt path a) := by
  rw [nested?_merge hb] at h
  split at h
  · cases h
  rw [keysAt, keysAt]
  cases hpatha : nested? path a with
  | none =>
    cases hpathb : nested? path b with
    | none => simp [hpatha, hpathb, Option.merge] at h
    | some added =>
      rw [hpatha, hpathb] at h
      obtain rfl : added = entries := Option.some.inj h
      exact (List.filter_eq_self.mpr fun _ _ => by simp).symm
  | some below =>
    cases hpathb : nested? path b with
    | none =>
      rw [hpatha, hpathb] at h
      obtain rfl : below = entries := Option.some.inj h
      exact (List.append_nil _).symm
    | some added =>
      rw [hpatha, hpathb] at h
      obtain rfl : merge below added = entries := Option.some.inj h
      exact keys_overlay (hb.nested hpathb).distinct below

/-! ## The laws -/

/-- The empty tree is neutral for merging, merging a tree into itself changes nothing, the keys of
every level come in the order of the first tree with the new ones behind them, and trees of which
the last two agree may be merged in either grouping. -/
theorem merge_laws (ha : WellKeyed a) (hb : WellKeyed b) (hc : WellKeyed c) :
    merge [] a = a ∧ merge a [] = a ∧ merge a a = a ∧ WellKeyed (merge a b) ∧
      (∀ path, ((nested? path (merge a b)).isSome ↔
          (nested? path b).isSome ∨ (nested? path a).isSome ∧ declares path b = false) ∧
        ∀ entries, nested? path (merge a b) = some entries →
          Keyed.keys entries = keysAt path a ++ (keysAt path b).filter (· ∉ keysAt path a)) ∧
      (Agree b c → merge (merge a b) c = merge a (merge b c)) := by
  refine ⟨nil_merge ha.distinct, merge_nil a, merge_self ha, ha.merge hb, fun path => ⟨?_, ?_⟩, ?_⟩
  · exact isSome_nested?_merge hb
  · exact fun entries h => keys_of_nested?_merge hb h
  · exact fun hagree => overlay_overlay a hc hb hagree.symm

/-- Three trees with a level in common, to which each of them adds keys. -/
theorem merge_laws_hover :
    let shown : StyleTree := [("display", .scalar "flex"), ("color", .scalar "green")]
    let faded : StyleTree := [("opacity", .scalar "1"), ("display", .scalar "block")]
    let a : StyleTree :=
      [("&:hover", .tree [("color", .scalar "blue")]), ("color", .scalar "red")]
    let b := nest "&:hover" shown
    let c := nest "&:hover" faded
    let result : StyleTree :=
      [("&:hover", .tree [("color", .scalar "green"), ("display", .scalar "block"),
        ("opacity", .scalar "1")]), ("color", .scalar "red")]
    WellKeyed a ∧ WellKeyed b ∧ WellKeyed c ∧ Agree b c ∧
      merge (merge a b) c = merge a (merge b c) ∧ merge a (merge b c) = result ∧
      keysAt ["&:hover"] (merge a b) = Text.listOf ["color", "display"] := by
  intro shown faded a b c result
  have hshown : WellKeyed shown := ⟨by decide, trivial, WellKeyed.scalar _ _⟩
  have hfaded : WellKeyed faded := ⟨by decide, trivial, WellKeyed.scalar _ _⟩
  have ha : WellKeyed a := ⟨by decide, WellKeyed.scalar _ _, WellKeyed.scalar _ _⟩
  have hb : WellKeyed b := hshown.nest _
  have hc : WellKeyed c := hfaded.nest _
  have hagree : Agree b c := Agree.nest _ (agree_of_declarations (by decide) (by decide))
  obtain ⟨-, -, -, -, hlevels, hassoc⟩ := merge_laws ha hb hc
  have hkeys : keysAt ["&:hover"] (merge a b) = _ := (hlevels ["&:hover"]).2 _ rfl
  exact ⟨ha, hb, hc, hagree, hassoc hagree, by decide, hkeys.trans rfl⟩

/-- Two trees that disagree on where something is nested may not be merged first. -/
example :
    let declared : StyleTree := [("a", .scalar "x")]
    let nested (key : Text) : StyleTree := nest "a" [(key, .scalar "x")]
    merge (merge (nested "b") declared) (nested "c") ≠
      merge (nested "b") (merge declared (nested "c")) := by
  decide

end StyleTree
end UtilityCss
