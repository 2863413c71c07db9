import UtilityCss.Registry.Basic

/-!
# The readings of a name

A name such as `-mt-4/50` can be read in several ways: as it stands, without the
leading hyphen as a negative value, without the modifier, without both, and, from
the longest to the shortest, as a registered name and a value with a hyphen
between them.  A reading counts only if the registry knows its name, and the
first one that leads to a style decides.
-/

namespace UtilityCss

/-- A modifier as it is written. -/
structure ModifierText where
  text : Text
  /-- Is it written in brackets? -/
  wrapped : Bool
  deriving DecidableEq, Repr

namespace ModifierText

/-- The number of bytes of the modifier with its slash and both brackets. -/
def width (m : ModifierText) : Nat := Text.bytes m.text + if m.wrapped then 3 else 1

end ModifierText

/-- A way to read a name. -/
structure Reading where
  key : Text
  /-- The value with the modifier on it. -/
  full : Option Text
  /-- The value without the modifier. -/
  value : Option Text
  negative : Bool
  modifier : Option ModifierText
  deriving DecidableEq, Repr

namespace Reading

/-- Drops so many bytes from the beginning of a text, none when that would cut
through a character. -/
def dropBytes? : Nat → Text → Option Text
  | 0, t => some t
  | _ + 1, [] => none
  | n + 1, c :: t => if c.utf8Size ≤ n + 1 then dropBytes? (n + 1 - c.utf8Size) t else none

/-- The name without its modifier: `none` if the name would be cut through a
character, `some none` if there is no modifier or nothing would be left. -/
def stripModifier? (name : Text) : Option ModifierText → Option (Option Text)
  | none => some none
  | some m =>
    if m.width < Text.bytes name then
      (dropBytes? m.width name.reverse).map fun rest => some rest.reverse
    else some none

/-- The ways to split a text at a hyphen, those with the longest first part last. -/
def splits : Text → List (Text × Text)
  | [] => []
  | c :: t =>
    let further := (splits t).map fun (key, value) => (c :: key, value)
    if c = '-' then ([], t) :: further else further

/-- A text without a leading hyphen, none when it has none. -/
def positive? : Text → Option Text
  | '-' :: t => some t
  | _ => none

/-- The readings of a name without a value. -/
def whole (name : Text) (stripped : Option Text) (modifier : Option ModifierText) :
    List Reading :=
  let reading (key : Text) (negative : Bool) (modifier : Option ModifierText) : Reading :=
    ⟨key, none, none, negative, modifier⟩
  let both (name : Text) (modifier : Option ModifierText) : List Reading :=
    let negative := (positive? name).map fun key => reading key true modifier
    reading name false modifier :: negative.toList
  both name none ++
    match stripped with
    | some stripped => both stripped modifier
    | none => []

/-- The readings of a name as a key and a value, the longest key first. -/
def split (name : Text) (stripped : Option Text) (modifier : Option ModifierText) :
    List Reading :=
  let full := (positive? name).getD name
  let core :=
    match stripped with
    | some stripped => (positive? stripped).getD stripped
    | none => full
  (splits core).reverse.filterMap fun (key, value) =>
    if key.isEmpty || value.isEmpty then none
    else
      some
        { key := key
          full := some (full.drop (key.length + 1))
          value := some value
          negative := (positive? name).isSome
          modifier := if stripped.isSome then modifier else none }

/-- The readings of a name that a table knows, in the order in which they are tried;
none when the modifier cannot be removed.  A value needs a spec that takes
values. -/
def all? {α : Type} (table : SpecTable α) (isLookup : α → Bool) (name : Text)
    (modifier : Option ModifierText) : Option (List Reading) :=
  (stripModifier? name modifier).map fun stripped =>
    let known := (whole name stripped modifier).filter fun r => Keyed.has r.key table
    let valued := (split name stripped modifier).filter fun r =>
      (table.specs r.key).any isLookup
    (known ++ valued).eraseDups

end Reading
end UtilityCss
