import UtilityCss.Text.Blank
import UtilityCss.Text.Quoted

/-!
# The variant separator

A variant is set off from what it applies to by a separator, a colon unless it is
configured.  It may be any text without blanks and without the characters that
carry structure, so a value of type `Separator` is known to hold neither.
-/

namespace UtilityCss

/-- The characters that carry structure in a class list. -/
def structural : Text := ['(', ')', '[', ']', '\x7b', '\x7d', '/', '!', '-']

/-- May the character be part of a separator? -/
def separates (c : Char) : Bool := !Text.isBlank c && !structural.contains c

/-- A usable separator. -/
structure Separator where
  text : Text
  text_ne_nil : text ≠ []
  all_separate : text.all separates = true

/-- Why a text is not a separator. -/
inductive SeparatorError where
  | empty
  | invalid (text : Text)
  deriving DecidableEq, Repr

namespace SeparatorError

/-- What the error says. -/
def message : SeparatorError → Text
  | .empty => "separator must not be empty"
  | .invalid text =>
    "invalid separator ".toList ++ Text.quoted text
      ++ ": must not contain whitespace or any of ()[]\x7b\x7d/!-".toList

end SeparatorError

namespace Separator

/-- Checks a text and makes it a separator. -/
def ofText (text : Text) : Except SeparatorError Separator :=
  if empty : text = [] then .error .empty
  else if usable : text.all separates = true then .ok ⟨text, empty, usable⟩
  else .error (.invalid text)

/-- A single colon. -/
def colon : Separator := ⟨[':'], by decide, by decide⟩

/-- Does the text go on with the separator? -/
def startsIn (sep : Separator) (t : Text) : Bool := Text.startsWith t sep.text

/-- Does the separator stand at this byte offset of a source?  Never at an offset
that is inside a character or past the end. -/
def standsAt (sep : Separator) : Text → Nat → Bool
  | t, 0 => sep.startsIn t
  | [], _ + 1 => false
  | c :: t, n + 1 => if c.utf8Size ≤ n + 1 then standsAt sep t (n + 1 - c.utf8Size) else false

/-- The text followed by the separator, unless it ends with it already. -/
def closeWith (sep : Separator) (t : Text) : Text :=
  if Text.endsWith t sep.text then t else t ++ sep.text

/-- A text makes a separator exactly when it is not empty and holds no blank and no
character that carries structure. -/
theorem ofText_isOk_iff (text : Text) :
    (∃ sep, ofText text = .ok sep)
      ↔ text ≠ [] ∧ ∀ c ∈ text, Text.isBlank c = false ∧ c ∉ structural := by
  have usable : text.all separates = true
      ↔ ∀ c ∈ text, Text.isBlank c = false ∧ c ∉ structural := by
    simp [separates]
  rw [← usable]
  unfold ofText
  split
  · simp_all
  · split <;> simp_all

end Separator
end UtilityCss
