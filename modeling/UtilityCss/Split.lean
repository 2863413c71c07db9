import UtilityCss.Brackets

/-!
# Splitting at the top level

Lists of values are split at commas or blanks that are not nested in brackets or
quotes.  A backslash takes the next character with it; a closing bracket without
an opening one changes nothing.
-/

namespace UtilityCss
namespace Split

/-- Where in the nesting a text is being read. -/
structure State where
  depth : Nat
  quote : Option Char
  escaped : Bool
  deriving DecidableEq, Repr

namespace State

/-- The top level. -/
def top : State := ⟨0, none, false⟩

/-- Is a separating character here one that separates? -/
def isTop (s : State) : Bool := s.depth = 0 && s.quote.isNone && !s.escaped

/-- The state after a character that does not separate. -/
def next (s : State) (c : Char) : State :=
  if s.escaped then ⟨s.depth, s.quote, false⟩
  else if c = '\x5c' then ⟨s.depth, s.quote, true⟩
  else
    match s.quote with
    | some q => if c = q then ⟨s.depth, none, false⟩ else s
    | none =>
      if Brackets.isQuote c then ⟨s.depth, some c, false⟩
      else if Brackets.isOpening c then ⟨s.depth + 1, none, false⟩
      else if Brackets.isClosing c then ⟨s.depth - 1, none, false⟩
      else s

/-- Does this character separate in this state?  Quotes, brackets and the backslash
never do. -/
def splitsAt (s : State) (p : Char → Bool) (c : Char) : Bool :=
  s.isTop && p c && c != '\x5c' && !Brackets.isQuote c && !Brackets.isOpening c
    && !Brackets.isClosing c

end State

/-- The parts of a text that is read from a state on. -/
def parts (p : Char → Bool) : State → Text → List Text
  | _, [] => [[]]
  | s, c :: t =>
    if s.splitsAt p c then [] :: parts p s t
    else
      match parts p (s.next c) t with
      | [] => [[c]]
      | part :: rest => (c :: part) :: rest

/-- The parts between the separating characters at the top level, at least one. -/
def atTop (p : Char → Bool) (t : Text) : List Text := parts p .top t

/-- The parts between the occurrences of one character. -/
def atChar (c : Char) (t : Text) : List Text := atTop (· = c) t

/-- The terms between blanks, none of them empty. -/
def terms (t : Text) : List Text := (atTop Text.isBlank t).filter fun part => !part.isEmpty

theorem parts_ne_nil (p : Char → Bool) (s : State) (t : Text) : parts p s t ≠ [] := by
  cases t with
  | nil => simp [parts]
  | cons c t =>
    unfold parts
    split
    · simp
    · split <;> simp

end Split
end UtilityCss
