import UtilityCss.Proofs.Bytewise.Text
import UtilityCss.Proofs.Evaluation.Precedence

/-!
# The readings of a name by byte offsets

To read a name as a key and a value, an offset is computed once, in the name without its sign
and its modifier, and then used on two texts: that one, and the name with the modifier still on
it.  The modifier is taken off by its width, which may not be where a character ends; a name
that would be cut through a character is torn.  No other cut can fail: all offsets are those of
hyphens, and what is left of a name when its modifier is off is a beginning of it.
-/

namespace UtilityCss
namespace Text

/-- Dropping so many bytes is cutting there. -/
theorem dropBytes?_eq_from? (n : Nat) (t : Text) : Reading.dropBytes? n t = t.from? n := by
  induction t generalizing n with
  | nil => cases n <;> rfl
  | cons c t ih =>
    cases n with
    | zero => rfl
    | succ n =>
      rw [Reading.dropBytes?, from?, cut?]
      split
      · rw [ih, from?, Option.map_map]
        rfl
      · rfl

end Text

namespace Bytewise

/-- What fails on no element is done for all of them. -/
theorem mapM_map_eq_some {α β γ : Type} {f : β → Option γ} {h : α → β} {g : α → γ} :
    ∀ {l : List α}, (∀ x ∈ l, f (h x) = some (g x)) → (l.map h).mapM f = some (l.map g)
  | [], _ => rfl
  | x :: l, hl => by
    rw [List.map_cons, List.mapM_cons, hl x List.mem_cons_self,
      mapM_map_eq_some fun y hy => hl y (List.mem_cons_of_mem x hy)]
    rfl

/-- The name without its modifier, which is as many bytes from the end as it is wide. -/
def stripModifier? (name : Text) : Option ModifierText → Option (Option Text)
  | none => some none
  | some m =>
    if m.width < Text.bytes name then (name.upTo? (Text.bytes name - m.width)).map some
    else some none

/-- The byte offsets of the hyphens of a text that stands at an offset. -/
def hyphens : Nat → Text → List Nat
  | _, [] => []
  | pos, c :: t =>
    if c = '-' then pos :: hyphens (pos + c.utf8Size) t else hyphens (pos + c.utf8Size) t

/-- A text without a leading hyphen. -/
def bare (t : Text) : Text := (Reading.positive? t).getD t

/-- The reading of a name as what is before and what is behind a hyphen, none when one of them is
empty. -/
def splitAt? (name : Text) (stripped : Option Text) (modifier : Option ModifierText) (dash : Nat) :
    Option (Option Reading) := do
  let core := bare (stripped.getD name)
  let key ← core.upTo? dash
  let value ← core.from? (dash + 1)
  if key.isEmpty || value.isEmpty then return none
  else
    let full ← (bare name).from? (dash + 1)
    return some
      { key := key
        full := some full
        value := some value
        negative := (Reading.positive? name).isSome
        modifier := if stripped.isSome then modifier else none }

/-- The readings of a name as a key and a value, the longest key first. -/
def split? (name : Text) (stripped : Option Text) (modifier : Option ModifierText) :
    Option (List Reading) :=
  ((hyphens 0 (bare (stripped.getD name))).reverse.mapM (splitAt? name stripped modifier)).map
    (List.filterMap id)

/-- The readings of a name that a table knows, in the order in which they are tried. -/
def all? {α : Type} (table : SpecTable α) (isLookup : α → Bool) (name : Text)
    (modifier : Option ModifierText) : Option (List Reading) := do
  let stripped ← stripModifier? name modifier
  let known := (Reading.whole name stripped modifier).filter fun r => Keyed.has r.key table
  let splits ← split? name stripped modifier
  let valued := splits.filter fun r => (table.specs r.key).any isLookup
  return (known ++ valued).eraseDups

theorem stripModifier?_eq (name : Text) (m : Option ModifierText) :
    stripModifier? name m = Reading.stripModifier? name m := by
  cases m with
  | none => rfl
  | some m =>
    rw [stripModifier?, Reading.stripModifier?]
    split
    next h =>
      rw [Text.dropBytes?_eq_from?, Text.from?_reverse (Nat.le_of_lt h)]
      cases name.upTo? (Text.bytes name - m.width) with
      | none => rfl
      | some core => exact congrArg (some ∘ some) core.reverse_reverse.symm
    next => rfl

/-- The hyphens are where the text is split. -/
theorem hyphens_eq (pos : Nat) (t : Text) :
    hyphens pos t = (Reading.splits t).map fun e => pos + Text.bytes e.1 := by
  induction t generalizing pos with
  | nil => rfl
  | cons c t ih =>
    have hfurther : hyphens (pos + c.utf8Size) t =
        (Reading.splits t).map fun e => pos + Text.bytes (c :: e.1) := by
      rw [ih]
      refine List.map_congr_left fun e _ => ?_
      rw [Text.bytes_cons, Nat.add_assoc]
    rw [hyphens, Reading.splits, hfurther]
    split
    · rw [List.map_cons, List.map_map]
      rfl
    · rw [List.map_map]
      rfl

/-- What is left of a name when its modifier is off is a beginning of it, also without the sign. -/
theorem exists_bare_append {name : Text} {m : Option ModifierText} {stripped : Option Text}
    (h : Reading.stripModifier? name m = some stripped) :
    ∃ u, bare name = bare (stripped.getD name) ++ u := by
  cases stripped with
  | none => exact ⟨[], (List.append_nil _).symm⟩
  | some core =>
    cases m with
    | none => exact absurd h (by simp [Reading.stripModifier?])
    | some m =>
      rw [← stripModifier?_eq, stripModifier?] at h
      split at h
      next hwidth =>
        obtain ⟨front, hfront, heq⟩ := Option.map_eq_some_iff.mp h
        obtain rfl : front = core := Option.some.inj heq
        obtain ⟨u, hname, hbytes⟩ := Text.upTo?_eq_some_iff.mp hfront
        have hcore : front ≠ [] := by
          rintro rfl
          rw [Text.bytes_nil] at hbytes
          omega
        refine ⟨u, ?_⟩
        rw [Option.getD_some, bare, bare, hname, Reading.positive?_append hcore]
        cases Reading.positive? front <;> rfl
      next => exact absurd (Option.some.inj h) (by simp)

/-- The reading of a name that is split into a key and a value. -/
def valued (name : Text) (stripped : Option Text) (modifier : Option ModifierText)
    (e : Text × Text) : Option Reading :=
  if e.1.isEmpty || e.2.isEmpty then none
  else
    some
      { key := e.1
        full := some ((bare name).drop (e.1.length + 1))
        value := some e.2
        negative := (Reading.positive? name).isSome
        modifier := if stripped.isSome then modifier else none }

theorem split_eq_valued (name : Text) (stripped : Option Text) (m : Option ModifierText) :
    Reading.split name stripped m =
      (Reading.splits (bare (stripped.getD name))).reverse.filterMap (valued name stripped m) := by
  cases stripped <;> rfl

/-- At the offset of a hyphen all three texts can be cut out. -/
theorem splitAt?_bytes {name u : Text} {stripped : Option Text} {e : Text × Text}
    (hname : bare name = bare (stripped.getD name) ++ u)
    (he : e ∈ Reading.splits (bare (stripped.getD name))) (m : Option ModifierText) :
    splitAt? name stripped m (0 + Text.bytes e.1) = some (valued name stripped m e) := by
  obtain ⟨key, value⟩ := e
  have hcore : bare (stripped.getD name) = key ++ '-' :: value := Reading.mem_splits.mp he
  have hdash : Text.bytes key + 1 = Text.bytes (key ++ ['-']) :=
    (Text.bytes_append key ['-']).symm
  have hbehind (rest : Text) : key ++ '-' :: rest = (key ++ ['-']) ++ rest := by simp
  have hfull : bare name = (key ++ ['-']) ++ (value ++ u) := by rw [hname, hcore]; simp
  have hdrop : (bare name).drop (key.length + 1) = value ++ u := by
    rw [hfull]
    exact List.drop_left' List.length_append
  rw [splitAt?, valued, Nat.zero_add, hdrop, hcore, Text.upTo?_append, hdash, hbehind,
    Text.from?_append, hfull, Text.from?_append]
  simp only [Option.bind_eq_bind, Option.bind_some]
  split <;> rfl

theorem split?_eq {name : Text} {m : Option ModifierText} {stripped : Option Text}
    (h : Reading.stripModifier? name m = some stripped) :
    split? name stripped m = some (Reading.split name stripped m) := by
  obtain ⟨u, hu⟩ := exists_bare_append h
  rw [split?, hyphens_eq, ← List.map_reverse,
    mapM_map_eq_some fun e he => splitAt?_bytes hu (List.mem_reverse.mp he) m, Option.map_some,
    List.filterMap_map, Function.id_comp, split_eq_valued]

/-- The readings of a name are found by offsets as well, and the only cut that can fail is the
one that takes the modifier off. -/
theorem all?_eq {α : Type} (table : SpecTable α) (isLookup : α → Bool) (name : Text)
    (modifier : Option ModifierText) :
    all? table isLookup name modifier = Reading.all? table isLookup name modifier := by
  rw [all?, Reading.all?, stripModifier?_eq]
  cases h : Reading.stripModifier? name modifier with
  | none => rfl
  | some stripped =>
    simp only [Option.bind_eq_bind, Option.bind_some, Option.map_some]
    rw [split?_eq h]
    rfl

/-- A modifier that is left open is one byte less wide than it is taken to be. -/
example : stripModifier? ['a', 'é', '/', '[', 'x'] (some ⟨['x'], true⟩) = none := by decide

end Bytewise
end UtilityCss
