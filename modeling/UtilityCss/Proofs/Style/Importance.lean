import UtilityCss.Proofs.Style.Commutation

/-!
# Trees that are marked important

Marking a tree important goes through its texts and leaves everything else as it is, so it may be
done before or after trees are merged and before or after they are put inside of levels.  A text
that is marked already stays as it is, so a tree may be marked as often as one likes.
-/

namespace UtilityCss
namespace StyleTree

/-! ## Applying a function to every text -/

section

variable (f g : Text → Text)

mutual

theorem mapScalars_mapScalars : ∀ tree : List (Text × StyleValue),
    mapScalars f (mapScalars g tree) = mapScalars (f ∘ g) tree
  | [] => rfl
  | (key, value) :: rest => by
    rw [mapScalars, mapScalars, mapScalars, mapScalarsValue_mapScalarsValue value,
      mapScalars_mapScalars rest]

theorem mapScalarsValue_mapScalarsValue : ∀ value : StyleValue,
    mapScalarsValue f (mapScalarsValue g value) = mapScalarsValue (f ∘ g) value
  | .scalar _ => rfl
  | .list _ => congrArg StyleValue.list (List.map_map ..)
  | .tree entries => congrArg StyleValue.tree (mapScalars_mapScalars entries)

end

theorem mapScalars_eq_nil_iff {tree : StyleTree} : mapScalars f tree = [] ↔ tree = [] := by
  cases tree with
  | nil => exact Iff.rfl
  | cons entry rest => exact iff_of_false (List.cons_ne_nil _ _) (List.cons_ne_nil _ _)

theorem mapScalars_nestIn (levels : List Text) (tree : StyleTree) :
    mapScalars f (nestIn levels tree) = nestIn levels (mapScalars f tree) := by
  induction levels with
  | nil => rfl
  | cons level rest ih => exact congrArg (nest level) ih

end

/-- The tree without its texts.  What is left are the keys in their order, how many texts there
are under each, and what is nested. -/
def bare (tree : StyleTree) : StyleTree := mapScalars (fun _ => []) tree

mutual

/-- Every text of the tree has the property. -/
def AllTexts (p : Text → Prop) : List (Text × StyleValue) → Prop
  | [] => True
  | (_, value) :: rest => AllTextsIn p value ∧ AllTexts p rest

/-- Every text of the value has the property. -/
def AllTextsIn (p : Text → Prop) : StyleValue → Prop
  | .scalar text => p text
  | .list items => ∀ text ∈ items, p text
  | .tree entries => AllTexts p entries

end

mutual

theorem allTexts_mapScalars {p : Text → Prop} {f : Text → Text} (h : ∀ text, p (f text)) :
    ∀ tree : List (Text × StyleValue), AllTexts p (mapScalars f tree)
  | [] => trivial
  | (_, value) :: rest => ⟨allTextsIn_mapScalarsValue h value, allTexts_mapScalars h rest⟩

theorem allTextsIn_mapScalarsValue {p : Text → Prop} {f : Text → Text} (h : ∀ text, p (f text)) :
    ∀ value : StyleValue, AllTextsIn p (mapScalarsValue f value)
  | .scalar text => h text
  | .list _ => List.forall_mem_map.mpr fun text _ => h text
  | .tree entries => allTexts_mapScalars h entries

end

/-! ## The mark -/

theorem endsWith_importantText (text : Text) :
    Text.endsWith (importantText text) "!important" = true := by
  unfold importantText
  split
  · rename_i hends
    exact hends
  · have hsplit : Text.dropTail? "!important" (text ++ " !important".toList) =
        some (text ++ [' ']) := by
      rw [Text.dropTail?_eq_some_iff, List.append_assoc]
      rfl
    exact Option.isSome_of_eq_some hsplit

/-- A text that is marked is not marked once more. -/
theorem importantText_importantText (text : Text) :
    importantText (importantText text) = importantText text :=
  if_pos (endsWith_importantText text)

theorem important_important (tree : StyleTree) : important (important tree) = important tree := by
  have hidem : importantText ∘ importantText = importantText := funext importantText_importantText
  rw [important, important, mapScalars_mapScalars, hidem]

/-- A tree that is marked important has its keys and its texts where they were. -/
theorem bare_important (tree : StyleTree) : bare (important tree) = bare tree :=
  mapScalars_mapScalars _ _ tree

/-- Everywhere in a tree that is marked important there is the mark. -/
theorem allTexts_important (tree : StyleTree) :
    AllTexts (fun text => Text.endsWith text "!important" = true) (important tree) :=
  allTexts_mapScalars endsWith_importantText tree

end StyleTree
end UtilityCss
