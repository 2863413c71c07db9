import UtilityCss.Source
import UtilityCss.Proofs.Text

/-!
# Passing over a source

A reader that starts at one cursor and stops at another has passed over the text
between them.  `Cursor.Passes` says so without arithmetic on lengths: the text
is at the front of what lay ahead, and behind the later place it stands reversed.
Everything about offsets and slices follows from that one relation, so later
modules speak of texts and never of positions.

A slice is *part of* another when it is found inside the other's text at the byte
offset it claims.  Being part of the whole source therefore says both that the
slice lies on character boundaries and that it shows what the source has there.
-/

namespace UtilityCss

namespace Slice

/-- The slice shows what the other one has at that place. -/
def PartOf (s t : Slice) : Prop :=
  ∃ a b : Text, t.text = a ++ s.text ++ b ∧ s.start = t.start + Text.bytes a

/-- The slice ends before the other one starts. -/
def Precedes (s t : Slice) : Prop := s.stop ≤ t.start

/-- What the slice has outside of the given parts is blank. -/
def CoveredBy (s : Slice) (parts : List Slice) : Prop :=
  ∀ (a : Text) (ch : Char) (b : Text), s.text = a ++ ch :: b →
    Text.isBlank ch = true ∨
      ∃ p ∈ parts, p.start ≤ s.start + Text.bytes a ∧ s.start + Text.bytes a < p.stop

theorem partOf_refl (s : Slice) : s.PartOf s := ⟨[], [], by simp, by simp⟩

theorem PartOf.trans {r s t : Slice} (hr : r.PartOf s) (hs : s.PartOf t) : r.PartOf t := by
  obtain ⟨a, b, htext, hstart⟩ := hr
  obtain ⟨a', b', htext', hstart'⟩ := hs
  refine ⟨a' ++ a, b ++ b', ?_, ?_⟩
  · rw [htext', htext]
    simp only [List.append_assoc]
  · rw [hstart, hstart', Text.bytes_append]
    omega

/-- A part starts no earlier than the whole. -/
theorem PartOf.le_start {s t : Slice} (h : s.PartOf t) : t.start ≤ s.start := by
  obtain ⟨a, b, -, hstart⟩ := h
  omega

/-! ## Slices in a row -/

/-- The slices stand one behind the other in the text `t` at the offset `start`, and
whatever is before, between and behind them satisfies `gap`. -/
def Lined (gap : Text → Prop) : Nat → Text → List Slice → Prop
  | _, t, [] => gap t
  | start, t, s :: rest => ∃ b u, t = b ++ s.text ++ u ∧ gap b ∧ s.start = start + Text.bytes b ∧
      Lined gap s.stop u rest

namespace Lined

variable {gap : Text → Prop}

theorem partOf : ∀ {parts : List Slice} {start : Nat} {t : Text}, Lined gap start t parts →
    ∀ s ∈ parts, s.PartOf ⟨start, t⟩
  | [], _, _, _ => by simp
  | p :: rest, start, t, h => by
    obtain ⟨b, u, rfl, -, hstart, hrest⟩ := h
    intro s hs
    rcases List.mem_cons.mp hs with rfl | hs
    · exact ⟨b, u, rfl, hstart⟩
    · obtain ⟨a, c, htext, hs⟩ := hrest.partOf s hs
      simp only at htext hs
      refine ⟨b ++ p.text ++ a, c, by rw [htext]; simp only [List.append_assoc], ?_⟩
      rw [hs, stop, hstart]
      simp only [Text.bytes_append]
      omega

theorem pairwise : ∀ {parts : List Slice} {start : Nat} {t : Text}, Lined gap start t parts →
    parts.Pairwise Precedes
  | [], _, _, _ => List.Pairwise.nil
  | p :: rest, start, t, h => by
    obtain ⟨b, u, rfl, -, -, hrest⟩ := h
    refine List.Pairwise.cons (fun s hs => ?_) hrest.pairwise
    exact (hrest.partOf s hs).le_start

/-- Where only blanks are between the slices, they cover the text. -/
theorem coveredBy : ∀ {parts : List Slice} {start : Nat} {t : Text},
    Lined (fun b => ∀ ch ∈ b, Text.isBlank ch = true) start t parts →
      CoveredBy ⟨start, t⟩ parts
  | [], _, t, h => by
    intro a ch b hsplit
    simp only at hsplit
    exact Or.inl (h ch (by rw [hsplit]; simp))
  | p :: rest, start, t, h => by
    obtain ⟨b, u, rfl, hblank, hstart, hrest⟩ := h
    intro a ch v hsplit
    simp only [List.append_assoc] at hsplit
    rcases Text.append_eq_append_cons hsplit with ⟨w, rfl, -⟩ | ⟨x, rfl, hx⟩
    · exact Or.inl (hblank ch (by simp))
    rcases Text.append_eq_append_cons hx with ⟨w, hp, -⟩ | ⟨y, rfl, hy⟩
    · have hpos := Char.utf8Size_pos ch
      refine Or.inr ⟨p, List.mem_cons_self .., ?_, ?_⟩ <;>
        simp only [stop, hstart, hp, Text.bytes_append, Text.bytes_cons] <;> omega
    · rcases hrest.coveredBy y ch v hy with hch | ⟨q, hq, hle, hlt⟩
      · exact Or.inl hch
      · refine Or.inr ⟨q, List.mem_cons_of_mem _ hq, ?_, ?_⟩ <;>
          simp only [stop, hstart, Text.bytes_append] at hle hlt ⊢ <;> omega

theorem of_partOf {s : Slice} {start : Nat} {t : Text} (h : s.PartOf ⟨start, t⟩) :
    Lined (fun _ => True) start t [s] := by
  obtain ⟨a, b, htext, hstart⟩ := h
  exact ⟨a, b, htext, trivial, hstart, trivial⟩

theorem mono {gap' : Text → Prop} (hgap : ∀ t, gap t → gap' t) : ∀ {parts : List Slice}
    {start : Nat} {t : Text}, Lined gap start t parts → Lined gap' start t parts
  | [], _, t, h => hgap t h
  | _ :: _, _, _, h => by
    obtain ⟨b, u, ht, hb, hstart, hrest⟩ := h
    exact ⟨b, u, ht, hgap b hb, hstart, hrest.mono hgap⟩

/-- Text in front of a row. -/
theorem prepend {b t : Text} {start : Nat} : ∀ {parts : List Slice},
    Lined (fun _ => True) (start + Text.bytes b) t parts →
      Lined (fun _ => True) start (b ++ t) parts
  | [], _ => trivial
  | _ :: _, h => by
    obtain ⟨a, u, rfl, -, hstart, hrest⟩ := h
    refine ⟨b ++ a, u, by simp only [List.append_assoc], trivial, ?_, hrest⟩
    rw [hstart, Text.bytes_append, Nat.add_assoc]

/-- Two rows one behind the other. -/
theorem append {u : Text} {more : List Slice} : ∀ {parts : List Slice} {start : Nat} {t : Text},
    Lined (fun _ => True) start t parts →
      Lined (fun _ => True) (start + Text.bytes t) u more →
      Lined (fun _ => True) start (t ++ u) (parts ++ more)
  | [], _, _, _, h => h.prepend
  | p :: _, start, _, h, h' => by
    obtain ⟨b, v, rfl, -, hstart, hrest⟩ := h
    refine ⟨b, v ++ u, by simp only [List.append_assoc], trivial, hstart, hrest.append ?_⟩
    have hstop : p.stop + Text.bytes v = start + Text.bytes (b ++ p.text ++ v) := by
      rw [stop, hstart]
      simp only [Text.bytes_append]
      omega
    rwa [hstop]

end Lined

end Slice

namespace Cursor

/-- All of the text that the place is in. -/
def source (c : Cursor) : Text := c.before.reverse ++ c.rest

@[simp] theorem source_advance (c : Cursor) (n : Nat) : (c.advance n).source = c.source :=
  c.advance_source n

@[simp] theorem source_atStart (t : Text) : (atStart t).source = t := rfl

/-- From one place to the other the text `t` is passed over. -/
structure Passes (c : Cursor) (t : Text) (d : Cursor) : Prop where
  rest_eq : c.rest = t ++ d.rest
  before_eq : d.before = t.reverse ++ c.before

variable {c d e : Cursor} {t u : Text}

theorem passes_nil (c : Cursor) : c.Passes [] c := ⟨rfl, rfl⟩

/-- Where nothing is passed over the place stays. -/
theorem Passes.eq_of_nil (h : c.Passes [] d) : d = c := by
  obtain ⟨before, rest⟩ := c
  obtain ⟨before', rest'⟩ := d
  obtain rfl : rest = rest' := h.rest_eq
  obtain rfl : before' = before := h.before_eq
  rfl

theorem Passes.trans (h : c.Passes t d) (h' : d.Passes u e) : c.Passes (t ++ u) e := by
  refine ⟨?_, ?_⟩
  · rw [h.rest_eq, h'.rest_eq, List.append_assoc]
  · rw [h'.before_eq, h.before_eq, List.reverse_append, List.append_assoc]

theorem Passes.source_eq (h : c.Passes t d) : d.source = c.source := by
  rw [source, source, h.before_eq, h.rest_eq, List.reverse_append, List.reverse_reverse,
    List.append_assoc]

/-- Advancing passes over what is taken off the front. -/
theorem passes_advance (c : Cursor) (n : Nat) : c.Passes (c.rest.take n) (c.advance n) := by
  refine ⟨?_, rfl⟩
  rw [rest_advance, List.take_append_drop]

theorem passes_advance_of_append {r : Text} (h : c.rest = t ++ r) :
    c.Passes t (c.advance t.length) := by
  have hp := passes_advance c t.length
  rwa [h, List.take_left' rfl] at hp

theorem rest_advance_of_append {r : Text} (h : c.rest = t ++ r) :
    (c.advance t.length).rest = r := by
  rw [rest_advance, h, List.drop_left' rfl]

theorem Passes.offset (h : c.Passes t d) : d.offset = c.offset + Text.bytes t := by
  rw [Cursor.offset, Cursor.offset, h.before_eq, Text.bytes_append, Text.bytes_reverse]
  omega

theorem Passes.length (h : c.Passes t d) : c.rest.length = t.length + d.rest.length := by
  rw [h.rest_eq, List.length_append]

theorem Passes.upTo (h : c.Passes t d) : c.upTo d = ⟨c.offset, t⟩ := by
  have hn : c.rest.length - d.rest.length = t.length := by rw [h.length]; omega
  rw [Cursor.upTo, Cursor.ahead, hn, h.rest_eq, List.take_left' rfl]

theorem ahead_of_append {r : Text} (h : c.rest = t ++ r) :
    c.ahead t.length = ⟨c.offset, t⟩ := by
  rw [ahead, h, List.take_left' rfl]

/-- Skipping blanks passes over blanks and stops at none. -/
theorem passes_skipBlanks (c : Cursor) :
    ∃ b : Text, c.Passes b c.skipBlanks ∧ (∀ ch ∈ b, Text.isBlank ch = true) ∧
      ∀ ch r, c.skipBlanks.rest = ch :: r → Text.isBlank ch = false := by
  have hsplit : c.rest = c.rest.takeWhile Text.isBlank ++ c.rest.dropWhile Text.isBlank :=
    List.takeWhile_append_dropWhile.symm
  refine ⟨c.rest.takeWhile Text.isBlank, passes_advance_of_append hsplit, ?_, ?_⟩
  · intro ch hch
    exact List.all_eq_true.mp List.all_takeWhile ch hch
  · intro ch r hr
    rw [skipBlanks, rest_advance_of_append hsplit] at hr
    have hne : c.rest.dropWhile Text.isBlank ≠ [] := by rw [hr]; exact List.cons_ne_nil _ _
    have := List.head_dropWhile_not Text.isBlank (l := c.rest) hne
    simpa [hr] using this

/-- Blanks are skipped up to the first character that is none, or to the end. -/
theorem passes_skipBlanks_of_append {b r : Text} (h : c.rest = b ++ r)
    (hb : ∀ ch ∈ b, Text.isBlank ch = true)
    (hr : ∀ x v, r = x :: v → Text.isBlank x = false) :
    c.Passes b c.skipBlanks ∧ c.skipBlanks.rest = r := by
  have hnone : r.takeWhile Text.isBlank = [] := by
    cases r with
    | nil => rfl
    | cons x v => exact List.takeWhile_cons_of_neg (by rw [hr x v rfl]; decide)
  have htake : c.rest.takeWhile Text.isBlank = b := by
    rw [h, List.takeWhile_append_of_pos hb, hnone, List.append_nil]
  rw [skipBlanks, htake]
  exact ⟨passes_advance_of_append h, rest_advance_of_append h⟩

theorem isAt_iff {ch : Char} : c.isAt ch = true ↔ ∃ r, c.rest = ch :: r := by
  rw [isAt]
  cases c.rest with
  | nil => simp
  | cons x r => simp

theorem isAt_eq_false_of_ne {ch x : Char} (h : c.isAt ch = true) (hne : ch ≠ x) :
    c.isAt x = false := by
  obtain ⟨r, hr⟩ := isAt_iff.mp h
  rw [isAt, hr]
  simpa using hne

end Cursor

end UtilityCss
