import UtilityCss.Proofs.Brackets.Encoding
import UtilityCss.Proofs.Bytewise.Text

/-!
# Scanning octets

The scanner for brackets may as well be run over the octets of a source: everything that it
tells apart is in the ASCII range, and the octets of a character outside of that range change
nothing for it (`isInert_of_isWide`).  It skips one octet behind a backslash, which can be the
first of several of one character; the rest of them are then read like any other text.

So both scans stop at the same bracket, the one counting bytes where the other counts characters
(`reach_octets`), and the byte offset at which a bracketed range ends is never inside of a
character (`closing_offset`).
-/

namespace UtilityCss
namespace Bytewise

/-! ## Places -/

/-- The place at a byte offset in the octets of a source. -/
def place (source : Text) (pos : Nat) : Cursor := (Cursor.atStart (Text.octets source)).advance pos

/-- The byte offset at which the range ends that starts at another one, and whether it is
closed. -/
def closing (source : Text) (pos : Nat) : Nat × Bool :=
  let k := Brackets.closing (place source pos)
  (pos + k.length, k.closed)

theorem place_offset (c : Cursor) :
    place c.source c.offset = ⟨(Text.octets c.before.reverse).reverse, Text.octets c.rest⟩ := by
  have hlength : (Text.octets c.before.reverse).length = c.offset := by
    rw [Text.length_octets, Text.bytes_reverse, Cursor.offset]
  have hrest : (Cursor.atStart (Text.octets c.source)).rest =
      Text.octets c.before.reverse ++ Text.octets c.rest := Text.octets_append ..
  rw [place, Cursor.advance, hrest, ← hlength, List.take_left' rfl, List.drop_left' rfl]
  simp [Cursor.atStart]

/-- A character of the ASCII range is found among the octets where it is in the text. -/
theorem exists_of_octets {ch : Char} (hch : Text.isWide ch = false) {t u : Text}
    (h : Text.octets t = ch :: u) : ∃ v, t = ch :: v := by
  cases t with
  | nil => exact absurd h (by simp)
  | cons c t =>
    obtain ⟨x, hx, heq⟩ := Text.exists_head_octets c t
    rw [h] at hx
    exact ⟨t, by rw [(heq ch hch).mp (Option.some.inj hx).symm]⟩

/-- A character of the ASCII range is at a place if its octet is. -/
theorem isAt_place {source : Text} {c : Cursor} (hc : c.source = source) {ch : Char}
    (hch : Text.isWide ch = false) : (place source c.offset).isAt ch = c.isAt ch := by
  rw [← hc, place_offset, Bool.eq_iff_iff, Cursor.isAt_iff, Cursor.isAt_iff]
  constructor
  · rintro ⟨u, hu⟩
    exact exists_of_octets hch hu
  · rintro ⟨v, hv⟩
    refine ⟨Text.octets v, ?_⟩
    simp only [hv]
    rw [Text.octets_cons_of_not_wide hch]

end Bytewise

namespace Brackets

open Text (octets octetsOf isWide bytes ne_of_isWide)

/-! ## Characters outside of the ASCII range -/

theorem isForeign_of_isWide {c : Char} (h : isWide c = true) : isForeign c = true := by
  have hrange : 0x80 ≤ c.val.toNat := of_decide_eq_true h
  have hlower : c.toLower = c := by
    refine dif_neg ?_
    rintro ⟨-, hle⟩
    have hle : c.val.toNat ≤ 90 := hle
    omega
  rw [isForeign_iff, hlower]
  exact ⟨ne_of_isWide h (by decide), ne_of_isWide h (by decide), ne_of_isWide h (by decide)⟩

theorem isPlain_of_isWide {c : Char} (h : isWide c = true) : isPlain c = true := by
  have ne : ∀ x : Char, isWide x = false → decide (c = x) = false := fun x hx =>
    decide_eq_false (ne_of_isWide h hx)
  refine isPlain_iff.mpr ⟨?_, ?_, ?_, ne_of_isWide h (by decide)⟩
  · rw [isQuote, ne _ (by decide), ne _ (by decide)]
    rfl
  · rw [isOpening, ne _ (by decide), ne _ (by decide), ne _ (by decide)]
    rfl
  · rw [isClosing, ne _ (by decide), ne _ (by decide), ne _ (by decide)]
    rfl

/-- From behind, the octets of a character look like the character. -/
theorem sameBehind_octets {b b' : Text} (c : Char) (h : SameBehind b b') :
    SameBehind (c :: b) ((octetsOf c).reverse ++ b') := by
  cases hc : isWide c with
  | false =>
    rw [Text.octetsOf_of_not_wide hc]
    exact h.append [c]
  | true =>
    obtain ⟨u, x, hx⟩ : ∃ u x, octetsOf c = u ++ [x] :=
      ⟨_, _, (List.dropLast_append_getLast (Text.octetsOf_ne_nil c)).symm⟩
    have hwide : isWide x = true := Text.octetsOf_wide hc (by simp [hx])
    rw [hx, List.reverse_append, List.reverse_singleton, List.append_assoc,
      List.singleton_append]
    exact sameBehind_cons (isForeign_of_isWide hc) (isForeign_of_isWide hwide) _ _

theorem isInert_of_isWide {c : Char} (h : isWide c = true) : isInert c = true :=
  isInert_iff.mpr ⟨isPlain_of_isWide h, ne_of_isWide h (by decide), ne_of_isWide h (by decide),
    ne_of_isWide h (by decide)⟩

/-! ## Both scans -/

/-- The scanner does not notice that it reads octets.  Of a character outside of the ASCII range
a backslash takes just the first one with it, and the others are nothing to the scanner. -/
theorem unnoticed_octetsOf : Unnoticed octetsOf where
  literal c hc := by
    refine Text.octetsOf_of_not_wide (Bool.eq_false_iff.mpr fun hwide => ?_)
    rw [isInert_of_isWide hwide] at hc
    exact absurd hc (by decide)
  overlooked c hc := by
    cases hwide : isWide c with
    | false => exact Text.octetsOf_of_not_wide hwide ▸ overlooked_singleton hc
    | true => exact overlooked_of_forall fun x hx => isInert_of_isWide (Text.octetsOf_wide hwide hx)
  first c hc := by
    cases hwide : isWide c with
    | false =>
      obtain ⟨-, hslash, hstar, -⟩ := isInert_iff.mp hc
      exact ⟨c, [], Text.octetsOf_of_not_wide hwide, hstar, hslash, overlooked_nil⟩
    | true =>
      obtain ⟨x, v, hx, hv⟩ := Text.exists_octetsOf c
      have hfirst : isWide x = true := Text.octetsOf_wide hwide (hx ▸ List.mem_cons_self)
      exact ⟨x, v, hx, ne_of_isWide hfirst (by decide), ne_of_isWide hfirst (by decide),
        overlooked_of_forall fun y hy => isInert_of_isWide (hv y hy)⟩
  behind c _ _ := sameBehind_octets c

/-- The scan of the octets of a text stops where the scan of the text does, and counts bytes. -/
theorem reach_octets {mode : Mode} {depth : Nat} {url : Option Nat} {before t : Text}
    (hmode : mode.Proper) {before' : Text} (hb : SameBehind before before') :
    reach mode depth url before' (octets t) =
      (reach mode depth url before t).map fun n => bytes (t.take n) := by
  rw [octets, unnoticed_octetsOf.reach hmode hb]
  exact congrArg (Option.map · _) (funext fun n => Text.length_octets (t.take n))

end Brackets

namespace Bytewise

/-- What is behind a place looks the same in octets. -/
theorem sameBehind_octets_reverse : ∀ before : Text,
    Brackets.SameBehind before (Text.octets before.reverse).reverse
  | [] => fun _ => rfl
  | c :: before => by
    have ih := Brackets.sameBehind_octets c (sameBehind_octets_reverse before)
    rwa [List.reverse_cons, Text.octets_append, Text.octets_cons, Text.octets_nil,
      List.append_nil, List.reverse_append]

/-- The byte offset at which a bracketed range ends is the offset of a place. -/
theorem closing_offset {source : Text} {c : Cursor} (hc : c.source = source) :
    closing source c.offset =
      ((c.advance (Brackets.closing c).length).offset, (Brackets.closing c).closed) := by
  have hreach : Brackets.reach .code 0 none (Text.octets c.before.reverse).reverse
      (Text.octets c.rest) =
        (Brackets.reach .code 0 none c.before c.rest).map fun n => Text.bytes (c.rest.take n) :=
    Brackets.reach_octets .code (sameBehind_octets_reverse c.before)
  have hoffset (n : Nat) : (c.advance n).offset = c.offset + Text.bytes (c.rest.take n) :=
    (c.passes_advance n).offset
  rw [← hc, closing, place_offset, hoffset, Brackets.closing, Brackets.closing]
  dsimp only
  rw [hreach]
  cases Brackets.reach .code 0 none c.before c.rest with
  | some n => rfl
  | none => rw [Option.map_none, Text.length_octets, List.take_length]

end Bytewise
end UtilityCss
