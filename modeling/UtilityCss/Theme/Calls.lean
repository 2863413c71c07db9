import UtilityCss.Text.Alphanumeric
import UtilityCss.Theme.Basic

/-!
# Theme calls

A text may call for values of the theme: `theme(path)` stands for the text of the
value at the path, and `theme(path, default)` for the default when there is none.
Defaults may hold calls themselves.

The recursion is bounded by the length of the text: both what follows a call and
the default inside one are shorter than the text they were found in.
-/

namespace UtilityCss
namespace Theme

/-- May the character be part of an identifier? -/
def isIdentifierChar (c : Char) : Bool := Text.isAlphanumeric c || c = '-' || c = '_'

/-- Do the characters behind, nearest first, join what follows to an identifier?  A
hyphen does so only after another character of an identifier. -/
def joins : Text → Bool
  | [] => false
  | '-' :: before => Text.startsWithChar before isIdentifierChar
  | c :: _ => Text.isAlphanumeric c || c = '_'

/-- The next call: the characters before it, nearest first, and the text from its
name on. -/
def findCall? (before : Text) : Text → Option (Text × Text)
  | [] => none
  | c :: t =>
    if Text.startsWith (c :: t) "theme(" && !joins before then some (before, c :: t)
    else findCall? (c :: before) t

/-- The text with every call replaced by its value, given how deep to go. -/
def renderWithin (theme : Theme) : Nat → Text → Text
  | 0, t => t
  | fuel + 1, t =>
    match findCall? [] t with
    | none => t
    | some (before, call) =>
      let paren := (⟨before, call⟩ : Cursor).advance 5
      let k := Brackets.closing paren
      let arguments := (Brackets.inner paren k).text
      let parts := Split.atChar ',' arguments
      let value :=
        match theme.resolve? (parts.headD []) with
        | some value => value
        | none =>
          match Text.cutAt? (· = ',') arguments with
          | some (_, default) =>
            if 1 < parts.length then renderWithin theme fuel (unquote (Text.trim default))
            else []
          | none => []
      before.reverse ++ value ++ renderWithin theme fuel (paren.advance k.length).rest

/-- The text with every call replaced by its value. -/
def renderCalls (theme : Theme) (t : Text) : Text := renderWithin theme (t.length + 1) t

end Theme
end UtilityCss
