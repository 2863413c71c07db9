import Mathlib.Data.List.Basic
import UtilityCss.Evaluation.Wrapper
import UtilityCss.Proofs.Style.Agreement
import UtilityCss.Proofs.Text

/-!
# Composing wrappers

A wrapper is applied layer by layer, the innermost first, but only to a tree that is not
empty.  Whether two wrappers may be applied one after the other instead of at once
therefore depends on whether the inner one can leave nothing of a tree.  A layer that
makes a template, and changes trees only into trees with something in them, cannot.

Whatever is applied, the keys of the outcome are distinct if those of the tree were.

A template writes levels inside each other, with braces around what is inside: `a { b { c } }`.
Its levels are found one after the other, from the first opening brace to the last closing one.  The
last brace is the one that was opened first, whatever stands between the two, so one step takes off
the outermost level together with its braces (`IsLevel.levelsWithin_around`).  Going on like this
gives the levels as they were written, and a tree that is wrapped stands inside all of them.
-/

namespace UtilityCss

open Keyed (Distinct)

namespace Wrapping

/-- The layer leaves something of every tree that has something in it. -/
structure Lasting (w : Wrapping) : Prop where
  templates_ne_nil : w.templates ≠ []
  post_ne_nil : ∀ post ∈ w.posts, ∀ tree : StyleTree, tree ≠ [] → post tree ≠ []

variable {w : Wrapping} {tree : StyleTree}

theorem wrap_eq_foldl (w : Wrapping) (tree : StyleTree) : w.wrap tree =
    (w.templates.map fun levels => StyleTree.nestIn levels tree).foldl StyleTree.merge [] :=
  List.foldl_map.symm

theorem wellKeyed_wrap (w : Wrapping) (htree : StyleTree.WellKeyed tree) :
    StyleTree.WellKeyed (w.wrap tree) := by
  rw [wrap_eq_foldl]
  refine StyleTree.wellKeyed_foldl_merge StyleTree.WellKeyed.nil fun t ht => ?_
  obtain ⟨levels, -, rfl⟩ := List.mem_map.mp ht
  exact htree.nestIn levels

theorem distinct_wrap (w : Wrapping) (tree : StyleTree) : Distinct (w.wrap tree) := by
  have hfold : ∀ (templates : List (List Text)) (out : StyleTree), Distinct out →
      Distinct (templates.foldl
        (fun out levels => StyleTree.merge out (StyleTree.nestIn levels tree)) out) := by
    intro templates
    induction templates with
    | nil =>
      intro out hout
      exact hout
    | cons levels rest ih =>
      intro out hout
      exact ih _ (StyleTree.distinct_merge _ hout)
  exact hfold w.templates [] Keyed.distinct_nil

/-- With a template the tree is found in the outcome. -/
theorem wrap_ne_nil (hw : w.templates ≠ []) (htree : tree ≠ []) : w.wrap tree ≠ [] := by
  have hmerge : ∀ (levels : List Text) (out : StyleTree),
      StyleTree.merge out (StyleTree.nestIn levels tree) ≠ [] := by
    intro levels out h
    exact StyleTree.nestIn_ne_nil htree levels ((StyleTree.merge_eq_nil_iff _ _).mp h).2
  have hfold : ∀ (templates : List (List Text)) (out : StyleTree), out ≠ [] →
      templates.foldl
        (fun out levels => StyleTree.merge out (StyleTree.nestIn levels tree)) out ≠ [] := by
    intro templates
    induction templates with
    | nil =>
      intro out hout
      exact hout
    | cons levels rest ih =>
      intro out _
      exact ih _ (hmerge levels out)
  unfold wrap
  cases htemplates : w.templates with
  | nil => exact absurd htemplates hw
  | cons levels rest => exact hfold rest _ (hmerge levels [])

theorem Lasting.apply_ne_nil (hw : w.Lasting) (htree : tree ≠ []) : w.apply tree ≠ [] := by
  have hfold : ∀ (posts : List (StyleTree → StyleTree)) (tree : StyleTree),
      (∀ post ∈ posts, ∀ tree : StyleTree, tree ≠ [] → post tree ≠ []) → tree ≠ [] →
      posts.foldl (fun tree post => post tree) tree ≠ [] := by
    intro posts
    induction posts with
    | nil =>
      intro tree _ htree
      exact htree
    | cons post rest ih =>
      intro tree hposts htree
      obtain ⟨hpost, hrest⟩ := List.forall_mem_cons.mp hposts
      exact ih (post tree) hrest (hpost tree htree)
  exact wrap_ne_nil hw.templates_ne_nil (hfold w.posts tree hw.post_ne_nil htree)

end Wrapping

namespace Wrapper

/-! ## Around each other -/

theorem identity_around (w : Wrapper) : identity.around w = w := rfl

theorem around_identity (w : Wrapper) : w.around identity = w := by
  cases w
  simp [around, identity]

theorem around_assoc (u v w : Wrapper) : (u.around v).around w = u.around (v.around w) := by
  simp [around, List.append_assoc]

theorem layers_foldl_around (members : List Wrapper) (w : Wrapper) :
    (members.foldl around w).layers = w.layers ++ members.flatMap layers := by
  induction members generalizing w with
  | nil => simp
  | cons member rest ih =>
    rw [List.foldl_cons, ih, List.flatMap_cons, ← List.append_assoc]
    rfl

/-! ## Lasting wrappers -/

/-- Every layer leaves something of every tree that has something in it. -/
def Lasting (w : Wrapper) : Prop := ∀ layer ∈ w.layers, layer.Lasting

theorem lasting_identity : identity.Lasting := by
  intro layer hlayer
  exact absurd hlayer List.not_mem_nil

theorem lasting_single {w : Wrapping} (hw : w.Lasting) : (single w).Lasting := by
  intro layer hlayer
  rw [List.mem_singleton.mp hlayer]
  exact hw

theorem Lasting.around {outer inner : Wrapper} (houter : outer.Lasting) (hinner : inner.Lasting) :
    (outer.around inner).Lasting := by
  intro layer hlayer
  rcases List.mem_append.mp hlayer with h | h
  · exact houter layer h
  · exact hinner layer h

/-- A group lasts whether its selectors are joined or its members are put around each
other: a joined layer has a template and the changes of all members. -/
theorem Lasting.group {members : List Wrapper} (hmembers : ∀ m ∈ members, m.Lasting) :
    (group members).Lasting := by
  have hlayers : ∀ layer ∈ members.flatMap layers, layer.Lasting := by
    intro layer hlayer
    obtain ⟨m, hm, hlayer⟩ := List.mem_flatMap.mp hlayer
    exact hmembers m hm layer hlayer
  unfold Wrapper.group
  split
  · refine lasting_single ⟨List.cons_ne_nil _ _, ?_⟩
    intro post hpost
    obtain ⟨layer, hlayer, hpost⟩ := List.mem_flatMap.mp hpost
    exact (hlayers layer hlayer).post_ne_nil post hpost
  · intro layer hlayer
    rw [layers_foldl_around] at hlayer
    exact hlayers layer hlayer

/-! ## Applying -/

variable {outer inner w : Wrapper} {tree : StyleTree}

theorem foldr_apply_ne_nil (htree : tree ≠ []) {layers : List Wrapping}
    (h : ∀ layer ∈ layers, layer.Lasting) : layers.foldr Wrapping.apply tree ≠ [] := by
  induction layers with
  | nil => exact htree
  | cons layer rest ih =>
    obtain ⟨hlayer, hrest⟩ := List.forall_mem_cons.mp h
    exact hlayer.apply_ne_nil (ih hrest)

theorem apply_of_ne_nil (w : Wrapper) (htree : tree ≠ []) :
    w.apply tree = w.layers.foldr Wrapping.apply tree := by
  rw [apply, if_neg (by simpa using htree)]

theorem Lasting.apply_eq_nil_iff (hw : w.Lasting) : w.apply tree = [] ↔ tree = [] := by
  constructor
  · intro h
    by_contra htree
    rw [w.apply_of_ne_nil htree] at h
    exact foldr_apply_ne_nil htree hw h
  · rintro rfl
    rfl

/-- Wrappers around each other may be applied one after the other, the inner one first. -/
theorem apply_around (outer : Wrapper) (hinner : inner.Lasting) (tree : StyleTree) :
    (outer.around inner).apply tree = outer.apply (inner.apply tree) := by
  by_cases htree : tree = []
  · rw [htree]
    rfl
  · have hne : inner.apply tree ≠ [] := fun h => htree (hinner.apply_eq_nil_iff.mp h)
    rw [apply_of_ne_nil _ htree, apply_of_ne_nil _ hne, apply_of_ne_nil _ htree]
    show (outer.layers ++ inner.layers).foldr Wrapping.apply tree = _
    rw [List.foldr_append]

theorem distinct_apply (w : Wrapper) (htree : Distinct tree) : Distinct (w.apply tree) := by
  by_cases hnil : tree = []
  · rw [hnil]
    exact Keyed.distinct_nil
  · rw [w.apply_of_ne_nil hnil]
    cases w.layers with
    | nil => exact htree
    | cons layer rest => exact layer.distinct_wrap _

end Wrapper

/-! ## Templates of several levels -/

namespace Wrapping

open Text (isBlank)

/-- A level that can be written in a template. -/
structure IsLevel (level : Text) : Prop where
  ne_nil : level ≠ []
  trimmed : Text.trim level = level
  not_opening : '\x7b' ∉ level
  not_closing : '\x7d' ∉ level

instance (level : Text) : Decidable (IsLevel level) :=
  decidable_of_iff (level ≠ [] ∧ Text.trim level = level ∧ '\x7b' ∉ level ∧ '\x7d' ∉ level)
    ⟨fun h => ⟨h.1, h.2.1, h.2.2.1, h.2.2.2⟩,
      fun h => ⟨h.ne_nil, h.trimmed, h.not_opening, h.not_closing⟩⟩

/-- The template writes the levels inside each other, the outermost first, with any blanks around
the braces. -/
inductive Writes : List Text → Text → Prop where
  | innermost (level : Text) : Writes [level] level
  | around (level : Text) {levels : List Text} {inner a b c d : Text} (h : Writes levels inner)
      (ha : ∀ ch ∈ a, isBlank ch = true) (hb : ∀ ch ∈ b, isBlank ch = true)
      (hc : ∀ ch ∈ c, isBlank ch = true) (hd : ∀ ch ∈ d, isBlank ch = true) :
      Writes (level :: levels) (level ++ a ++ '\x7b' :: (b ++ inner ++ c ++ '\x7d' :: d))

variable {level t u a b c d : Text} {levels : List Text}

/-- Blanks around a template do not matter. -/
theorem levelsWithin_congr (h : Text.trim t = Text.trim u) (fuel : Nat) :
    levelsWithin fuel t = levelsWithin fuel u := by
  cases fuel with
  | zero => rfl
  | succ fuel => rw [levelsWithin, levelsWithin, h]

namespace IsLevel

theorem exists_head (h : IsLevel level) : ∃ ch rest, level = ch :: rest ∧ isBlank ch = false := by
  obtain ⟨ch, rest, rfl⟩ := List.exists_cons_of_ne_nil h.ne_nil
  refine ⟨ch, rest, rfl, Bool.eq_false_iff.mpr fun hblank => ?_⟩
  have hnil : [ch] = [] := Text.eq_nil_of_trim_front h.trimmed (u := rest) rfl (by simpa using hblank)
  exact List.cons_ne_nil ch [] hnil

/-- A level is a template by itself. -/
theorem levelsWithin (h : IsLevel level) (fuel : Nat) :
    levelsWithin (fuel + 1) level = [level] := by
  have hcut : Text.cutAt? (· = '\x7b') level = none := by
    refine Option.eq_none_iff_forall_ne_some.mpr fun parts hparts => ?_
    obtain ⟨ch, hch, -, hlevel⟩ := Text.cutAt?_eq_some_iff.mp hparts
    obtain rfl := of_decide_eq_true hch
    exact h.not_opening (by rw [hlevel]; simp)
  have hne : level.isEmpty = false := List.isEmpty_eq_false_iff.mpr h.ne_nil
  rw [Wrapping.levelsWithin, h.trimmed, hcut]
  simp only [hne, Bool.false_eq_true, if_false]

/-- The first opening brace and the last closing one belong together, whatever stands between
them. -/
theorem levelsWithin_around (h : IsLevel level) (ha : ∀ ch ∈ a, isBlank ch = true)
    (hd : ∀ ch ∈ d, isBlank ch = true) (inner : Text) (fuel : Nat) :
    Wrapping.levelsWithin (fuel + 1) (level ++ a ++ '\x7b' :: (inner ++ '\x7d' :: d)) =
      level :: Wrapping.levelsWithin fuel inner := by
  have htrim : Text.trim (level ++ a ++ '\x7b' :: (inner ++ '\x7d' :: d)) =
      level ++ a ++ '\x7b' :: (inner ++ ['\x7d']) := by
    obtain ⟨ch, rest, rfl, hch⟩ := h.exists_head
    have hends : ch :: rest ++ a ++ '\x7b' :: (inner ++ '\x7d' :: d) =
        ch :: (rest ++ a ++ '\x7b' :: inner ++ ['\x7d']) ++ d := by simp
    rw [hends, Text.trim_append_blanks hd, Text.trim_enclosed hch (by decide)]
    simp
  have hfirst : Text.cutAt? (· = '\x7b') (level ++ a ++ '\x7b' :: (inner ++ ['\x7d'])) =
      some (level ++ a, inner ++ ['\x7d']) := by
    refine Text.cutAt?_eq_some_iff.mpr ⟨'\x7b', by decide, fun x hx => decide_eq_false ?_, rfl⟩
    rintro rfl
    rcases List.mem_append.mp hx with hx | hx
    · exact h.not_opening hx
    · exact Text.not_mem_blanks ha (by decide) hx
  have hlast : Text.cutAtLast? (· = '\x7d') (inner ++ ['\x7d']) = some (inner, []) :=
    Text.cutAtLast?_eq_some_iff.mpr ⟨'\x7d', by decide, by simp, rfl⟩
  have hhead : Text.trim (level ++ a) = level := by
    rw [Text.trim_append_blanks ha, h.trimmed]
  have hne : level.isEmpty = false := List.isEmpty_eq_false_iff.mpr h.ne_nil
  rw [Wrapping.levelsWithin, htrim, hfirst]
  simp only [hlast, hhead, hne, Bool.false_eq_true, if_false]

end IsLevel

namespace Writes

/-- Every step takes off one level, so there are as many steps as levels. -/
theorem levelsWithin (h : Writes levels t) (hlevels : ∀ level ∈ levels, IsLevel level)
    (fuel : Nat) : Wrapping.levelsWithin (levels.length + fuel) t = levels := by
  induction h with
  | innermost level =>
    rw [List.length_singleton, Nat.add_comm]
    exact (hlevels level (List.mem_singleton_self level)).levelsWithin fuel
  | @around level levels inner a b c d _ ha hb hc hd ih =>
    obtain ⟨hlevel, hrest⟩ := List.forall_mem_cons.mp hlevels
    rw [List.length_cons, Nat.add_right_comm, hlevel.levelsWithin_around ha hd,
      levelsWithin_congr (Text.trim_between_blanks hb hc inner), ih hrest]

theorem length_le (h : Writes levels t) : levels.length ≤ t.length + 1 := by
  induction h with
  | innermost level => simp
  | around level _ _ _ _ _ ih =>
    simp only [List.length_cons, List.length_append]
    omega

theorem ne_nil (h : Writes levels t) : levels ≠ [] := by
  cases h with
  | innermost level => exact List.cons_ne_nil _ _
  | around level _ _ _ _ _ => exact List.cons_ne_nil _ _

theorem levels_eq (h : Writes levels t) (hlevels : ∀ level ∈ levels, IsLevel level) :
    Wrapping.levels t = levels := by
  rw [Wrapping.levels, ← Nat.add_sub_cancel' h.length_le]
  exact h.levelsWithin hlevels _

end Writes

/-- With one template a tree is put inside its levels. -/
theorem wrap_ofTemplates_singleton {template : Text} (h : Wrapping.levels template ≠ [])
    (post : Option (StyleTree → StyleTree)) (tree : StyleTree) :
    (ofTemplates [template] post).wrap tree = StyleTree.nestIn (Wrapping.levels template) tree := by
  obtain ⟨level, rest, hlevels⟩ := List.exists_cons_of_ne_nil h
  show StyleTree.merge [] (StyleTree.nestIn (Wrapping.levels template) tree) = _
  rw [hlevels]
  rfl

/-- **Templates nest as they are written.**  The levels of a template in which levels are written
inside each other, with any blanks around the braces, are these levels.  With it as the only template
a tree is put inside of all of them, the first level outermost. -/
theorem levels_nest (h : Writes levels t) (hlevels : ∀ level ∈ levels, IsLevel level) :
    Wrapping.levels t = levels ∧
    (∀ post tree, (ofTemplates [t] post).wrap tree = StyleTree.nestIn levels tree) ∧
    ∀ tree, tree ≠ [] →
      (Wrapper.single (ofTemplates [t] none)).apply tree = StyleTree.nestIn levels tree := by
  have heq := h.levels_eq hlevels
  have hwrap : ∀ post tree,
      (ofTemplates [t] post).wrap tree = StyleTree.nestIn levels tree := by
    intro post tree
    rw [wrap_ofTemplates_singleton (heq.symm ▸ h.ne_nil), heq]
  refine ⟨heq, hwrap, fun tree htree => ?_⟩
  rw [Wrapper.apply, if_neg (by simpa using htree)]
  exact hwrap none tree

theorem levels_nest_media :
    let levels : List Text := ["@media print".toList, ".dark &".toList, "&:hover".toList]
    let template : Text := "@media print\x7b .dark &  \x7b&:hover\x7d \x7d"
    let tree : StyleTree := [("display", .scalar "flex")]
    Writes levels template ∧ (∀ level ∈ levels, IsLevel level) ∧ tree ≠ [] ∧
    Wrapping.levels template = levels ∧
    (Wrapper.single (ofTemplates [template] none)).apply tree =
      ([("@media print", .tree [(".dark &", .tree [("&:hover", .tree tree)])])] : StyleTree) := by
  intro levels template tree
  have hwrites : Writes levels template := by
    have hinner := Writes.around ".dark &" (a := "  ".toList) (b := []) (c := []) (d := " ".toList)
      (.innermost "&:hover") (by decide) (by decide) (by decide) (by decide)
    exact Writes.around "@media print" (a := []) (b := " ".toList) (c := []) (d := []) hinner
      (by decide) (by decide) (by decide) (by decide)
  have hlevels : ∀ level ∈ levels, IsLevel level := by decide
  have htree : tree ≠ [] := by decide
  have h := levels_nest hwrites hlevels
  exact ⟨hwrites, hlevels, htree, h.1, h.2.2 tree htree⟩

end Wrapping
end UtilityCss
