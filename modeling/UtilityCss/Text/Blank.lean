import UtilityCss.Text.Basic

/-!
# Blank characters

Words of a class list are separated by the characters with the Unicode property
White_Space.  There are twenty-five of them, and the same set is what trimming
removes from the ends of a text.
-/

namespace UtilityCss
namespace Text

/-- The code points with the property White_Space, as closed ranges. -/
def blankRanges : List (Nat × Nat) :=
  [(0x09, 0x0d), (0x20, 0x20), (0x85, 0x85), (0xa0, 0xa0), (0x1680, 0x1680),
    (0x2000, 0x200a), (0x2028, 0x2029), (0x202f, 0x202f), (0x205f, 0x205f), (0x3000, 0x3000)]

/-- Is the character white space? -/
def isBlank (c : Char) : Bool :=
  blankRanges.any fun (low, high) => low ≤ c.toNat && c.toNat ≤ high

/-- What core calls white space is blank. -/
theorem isBlank_of_isWhitespace {c : Char} (h : c.isWhitespace = true) :
    isBlank c = true := by
  simp only [Char.isWhitespace, Bool.or_eq_true, decide_eq_true_eq] at h
  rcases h with ((rfl | rfl) | rfl) | rfl <;> decide

/-- The text without blanks at either end. -/
def trim (t : Text) : Text := trimBy isBlank t

/-- The text without blanks at its end. -/
def trimEnd (t : Text) : Text := trimEndBy isBlank t

/-- The runs of characters that are not blank. -/
def words (t : Text) : List Text := (pieces isBlank t).filter fun w => !w.isEmpty

end Text
end UtilityCss
