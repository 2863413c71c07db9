import UtilityCss.Text.Blank

/-!
# Places in a source

A source is read by a cursor that remembers what lies behind it, because one rule
looks back: whether a parenthesis opens a `url` argument depends on the three
characters before it.  What is read off a source is a slice, the text together
with the byte offset at which it starts, so every part of a parse result knows
where it came from.
-/

namespace UtilityCss

/-- A half-open range of byte offsets. -/
structure Span where
  start : Nat
  stop : Nat
  deriving DecidableEq, Repr

namespace Span

/-- The number of bytes in the range. -/
def size (s : Span) : Nat := s.stop - s.start

/-- Does the range hold no byte? -/
def isEmpty (s : Span) : Bool := s.start == s.stop

/-- The smallest range around both. -/
def join (s t : Span) : Span := ⟨min s.start t.start, max s.stop t.stop⟩

/-- The two offsets with two dots between them. -/
def text (s : Span) : Text := Text.ofNat s.start ++ ['.', '.'] ++ Text.ofNat s.stop

end Span

/-- A piece of a source: its text and the byte offset where it starts. -/
structure Slice where
  start : Nat
  text : Text
  deriving DecidableEq, Repr

namespace Slice

/-- The byte offset just past the piece. -/
def stop (s : Slice) : Nat := s.start + Text.bytes s.text

/-- The byte range of the piece. -/
def span (s : Slice) : Span := ⟨s.start, s.stop⟩

/-- The piece without its first `n` characters. -/
def drop (s : Slice) (n : Nat) : Slice :=
  ⟨s.start + Text.bytes (s.text.take n), s.text.drop n⟩

/-- The first `n` characters of the piece. -/
def take (s : Slice) (n : Nat) : Slice := ⟨s.start, s.text.take n⟩

/-- Dropping characters does not move the end. -/
@[simp] theorem stop_drop (s : Slice) (n : Nat) : (s.drop n).stop = s.stop := by
  simp only [stop, drop, Nat.add_assoc, ← Text.bytes_append, List.take_append_drop]

end Slice

/-- A place in a source: the characters behind it, nearest first, and those ahead. -/
structure Cursor where
  before : Text
  rest : Text
  deriving DecidableEq, Repr

namespace Cursor

/-- The beginning of a source. -/
def atStart (source : Text) : Cursor := ⟨[], source⟩

/-- The byte offset of the place. -/
def offset (c : Cursor) : Nat := Text.bytes c.before

/-- The place `n` characters further on, at most the end. -/
def advance (c : Cursor) (n : Nat) : Cursor :=
  ⟨(c.rest.take n).reverse ++ c.before, c.rest.drop n⟩

/-- The next `n` characters. -/
def ahead (c : Cursor) (n : Nat) : Slice := ⟨c.offset, c.rest.take n⟩

/-- The characters between a place and a later one. -/
def upTo (c later : Cursor) : Slice := c.ahead (c.rest.length - later.rest.length)

/-- The next place that is not before a blank. -/
def skipBlanks (c : Cursor) : Cursor := c.advance (c.rest.takeWhile Text.isBlank).length

/-- Does the source go on with this character? -/
def isAt (c : Cursor) (ch : Char) : Bool := c.rest.head? == some ch

/-- Is the source at its end, or does it go on with a blank? -/
def isAtGap (c : Cursor) : Bool :=
  match c.rest with
  | [] => true
  | ch :: _ => Text.isBlank ch

@[simp] theorem rest_advance (c : Cursor) (n : Nat) : (c.advance n).rest = c.rest.drop n := rfl

/-- Advancing does not change the source the cursor runs over. -/
theorem advance_source (c : Cursor) (n : Nat) :
    (c.advance n).before.reverse ++ (c.advance n).rest = c.before.reverse ++ c.rest := by
  simp [advance, List.append_assoc]

end Cursor
end UtilityCss
