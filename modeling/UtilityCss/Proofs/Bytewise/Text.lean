import UtilityCss.Proofs.Text

/-!
# Bytes of a text

A text that is handled by byte offsets is cut only between characters.  An operation that cuts
at an offset gives nothing where the offset is inside of a character, past the end, or in front
of the other end of what is cut out; to show that it gives something is to show that no offset
is ever such.

A scanner that compares bytes sees the octets of a text.  An octet of the ASCII range is a
character of its own, and the octets of all other characters are outside of that range
(`octetsOf_wide`), so nothing that a scanner looks for is found inside of a character.
-/

namespace UtilityCss
namespace Text

/-! ## Cutting at byte offsets -/

/-- The texts before and behind a byte offset, none when it is past the end or inside of a
character. -/
def cut? : Nat → Text → Option (Text × Text)
  | 0, t => some ([], t)
  | _ + 1, [] => none
  | n + 1, c :: t =>
    if c.utf8Size ≤ n + 1 then
      (cut? (n + 1 - c.utf8Size) t).map fun (a, b) => (c :: a, b)
    else none

/-- The text up to a byte offset. -/
def upTo? (t : Text) (stop : Nat) : Option Text := (cut? stop t).map Prod.fst

/-- The text from a byte offset on. -/
def from? (t : Text) (start : Nat) : Option Text := (cut? start t).map Prod.snd

/-- The text between two byte offsets, none also when they are in the wrong order. -/
def between? (t : Text) (start stop : Nat) : Option Text :=
  if start ≤ stop then (t.upTo? stop).bind fun front => from? front start else none

/-- The byte offset of the first character of the class. -/
def offset? (p : Char → Bool) (t : Text) : Option Nat :=
  (cutAt? p t).map fun (front, _) => bytes front

/-- The byte offset of the last character of the class. -/
def lastOffset? (p : Char → Bool) (t : Text) : Option Nat :=
  (cutAtLast? p t).map fun (front, _) => bytes front

/-- The byte offset of the first occurrence of a part. -/
def offsetOf? (part t : Text) : Option Nat :=
  (cutAround? part t).map fun (front, _) => bytes front

theorem bytes_eq_zero_iff {t : Text} : bytes t = 0 ↔ t = [] := by
  cases t with
  | nil => simp
  | cons c t => exact iff_of_false (Nat.ne_of_gt (bytes_pos (List.cons_ne_nil c t))) (by simp)

theorem cut?_append : ∀ a b : Text, cut? (bytes a) (a ++ b) = some (a, b)
  | [], b => by rw [bytes_nil, cut?, List.nil_append]
  | c :: a, b => by
    have hsize := c.utf8Size_pos
    obtain ⟨n, hn⟩ : ∃ n, bytes (c :: a) = n + 1 := ⟨bytes (c :: a) - 1, by rw [bytes_cons]; omega⟩
    rw [bytes_cons] at hn
    have hrest : n + 1 - c.utf8Size = bytes a := by omega
    rw [bytes_cons, hn, List.cons_append, cut?, if_pos (by omega), hrest, cut?_append a b]
    rfl

/-- Where a text can be cut, its parts make it up. -/
theorem cut?_eq_some_iff {n : Nat} {t a b : Text} :
    cut? n t = some (a, b) ↔ t = a ++ b ∧ n = bytes a := by
  refine ⟨fun h => ?_, ?_⟩
  · induction t generalizing n a with
    | nil =>
      cases n with
      | zero =>
        obtain ⟨rfl, rfl⟩ := Prod.mk.inj (Option.some.inj h)
        exact ⟨rfl, rfl⟩
      | succ n => exact absurd h (by simp [cut?])
    | cons c t ih =>
      cases n with
      | zero =>
        obtain ⟨rfl, rfl⟩ := Prod.mk.inj (Option.some.inj h)
        exact ⟨rfl, rfl⟩
      | succ n =>
        rw [cut?] at h
        split at h
        next hle =>
          obtain ⟨⟨a', b'⟩, hcut, heq⟩ := Option.map_eq_some_iff.mp h
          obtain ⟨rfl, rfl⟩ := Prod.mk.inj heq
          obtain ⟨rfl, hn⟩ := ih hcut
          exact ⟨rfl, by rw [bytes_cons]; omega⟩
        next => exact absurd h (by simp)
  · rintro ⟨rfl, rfl⟩
    exact cut?_append a b

/-- A text is cut in one way at an offset. -/
theorem append_inj_of_bytes {a b u v : Text} (h : a ++ u = b ++ v) (hbytes : bytes a = bytes b) :
    a = b := by
  have hcut := cut?_append a u
  rw [h, hbytes, cut?_append] at hcut
  exact (Prod.mk.inj (Option.some.inj hcut)).1.symm

@[simp] theorem upTo?_append (a b : Text) : (a ++ b).upTo? (bytes a) = some a := by
  rw [upTo?, cut?_append, Option.map_some]

@[simp] theorem from?_append (a b : Text) : (a ++ b).from? (bytes a) = some b := by
  rw [from?, cut?_append, Option.map_some]

theorem upTo?_eq_some_iff {n : Nat} {t a : Text} :
    t.upTo? n = some a ↔ ∃ b, t = a ++ b ∧ n = bytes a := by
  rw [upTo?, Option.map_eq_some_iff]
  constructor
  · rintro ⟨⟨a, b⟩, hcut, rfl⟩
    exact ⟨b, cut?_eq_some_iff.mp hcut⟩
  · rintro ⟨b, hb⟩
    exact ⟨(a, b), cut?_eq_some_iff.mpr hb, rfl⟩

theorem from?_eq_some_iff {n : Nat} {t b : Text} :
    t.from? n = some b ↔ ∃ a, t = a ++ b ∧ n = bytes a := by
  rw [from?, Option.map_eq_some_iff]
  constructor
  · rintro ⟨⟨a, b⟩, hcut, rfl⟩
    exact ⟨a, cut?_eq_some_iff.mp hcut⟩
  · rintro ⟨a, ha⟩
    exact ⟨(a, b), cut?_eq_some_iff.mpr ha, rfl⟩

/-- A text may also be cut from its end. -/
theorem from?_reverse {n : Nat} {t : Text} (h : n ≤ bytes t) :
    from? t.reverse n = (t.upTo? (bytes t - n)).map List.reverse := by
  refine Option.ext fun x => ?_
  rw [from?_eq_some_iff, Option.map_eq_some_iff]
  constructor
  · rintro ⟨a, ht, rfl⟩
    obtain rfl : t = x.reverse ++ a.reverse := by
      rw [← List.reverse_append, ← ht, List.reverse_reverse]
    refine ⟨x.reverse, upTo?_eq_some_iff.mpr ⟨a.reverse, rfl, ?_⟩, List.reverse_reverse x⟩
    rw [bytes_append, bytes_reverse a, Nat.add_sub_cancel]
  · rintro ⟨front, hfront, rfl⟩
    obtain ⟨rest, rfl, hn⟩ := upTo?_eq_some_iff.mp hfront
    refine ⟨rest.reverse, List.reverse_append, ?_⟩
    rw [bytes_append] at h hn
    rw [bytes_reverse]
    omega

theorem between?_append (a b c : Text) :
    (a ++ (b ++ c)).between? (bytes a) (bytes a + bytes b) = some b := by
  rw [between?, if_pos (Nat.le_add_right ..), ← List.append_assoc, ← bytes_append, upTo?_append,
    Option.bind_some, from?_append]

/-- Where a character of a class was found the text can be cut. -/
theorem upTo?_of_cutAt? {p : Char → Bool} {t a b : Text} (h : cutAt? p t = some (a, b)) :
    t.upTo? (bytes a) = some a := by
  obtain ⟨ch, -, -, rfl⟩ := cutAt?_eq_some_iff.mp h
  exact upTo?_append a (ch :: b)

theorem upTo?_of_cutAtLast? {p : Char → Bool} {t a b : Text} (h : cutAtLast? p t = some (a, b)) :
    t.upTo? (bytes a) = some a := by
  obtain ⟨ch, -, -, rfl⟩ := cutAtLast?_eq_some_iff.mp h
  exact upTo?_append a (ch :: b)

/-- And also behind it. -/
theorem from?_of_cutAt? {x : Char} {t a b : Text} (h : cutAt? (· = x) t = some (a, b)) :
    t.from? (bytes a + x.utf8Size) = some b := by
  obtain ⟨ch, hch, -, rfl⟩ := cutAt?_eq_some_iff.mp h
  obtain rfl : ch = x := of_decide_eq_true hch
  have hcut := from?_append (a ++ [ch]) b
  rwa [bytes_append, List.append_assoc] at hcut

/-! ## Octets -/

/-- Is the character outside of the ASCII range? -/
def isWide (c : Char) : Bool := decide (0x80 ≤ c.toNat)

/-- The bytes of the UTF-8 form of a character, each as the character of that number. -/
def octetsOf (c : Char) : Text := (String.utf8EncodeChar c).map fun b => Char.ofNat b.toNat

/-- The bytes of the UTF-8 form of a text. -/
def octets (t : Text) : Text := t.flatMap octetsOf

theorem isWide_eq_false {c : Char} {x : UInt32} (h : c.val ≤ x) (hx : x.toNat < 0x80) :
    isWide c = false :=
  decide_eq_false (Nat.not_le_of_lt (Nat.lt_of_le_of_lt (UInt32.le_iff_toNat_le.mp h) hx))

theorem isWide_of_isDigit {c : Char} (h : c.isDigit = true) : isWide c = false := by
  have hrange : decide (c.val ≥ 48) = true ∧ decide (c.val ≤ 57) = true :=
    (Bool.and_eq_true ..).mp h
  exact isWide_eq_false (of_decide_eq_true hrange.2) (by decide)

theorem isWide_of_isAlpha {c : Char} (h : c.isAlpha = true) : isWide c = false := by
  have hrange : decide (c.val ≥ 65 ∧ c.val ≤ 90) = true ∨
      (decide (c.val ≥ 97) && decide (c.val ≤ 122)) = true := (Bool.or_eq_true ..).mp h
  rcases hrange with hupper | hlower
  · exact isWide_eq_false (of_decide_eq_true hupper).2 (by decide)
  · exact isWide_eq_false (of_decide_eq_true ((Bool.and_eq_true ..).mp hlower).2) (by decide)

theorem ne_of_isWide {c x : Char} (hc : isWide c = true) (hx : isWide x = false) : c ≠ x := by
  rintro rfl
  rw [hc] at hx
  exact absurd hx (by decide)

/-- A condition of the ASCII range does not hold outside of it. -/
theorem eq_false_of_isWide {p : Char → Bool} (hp : ∀ x, p x = true → isWide x = false) {c : Char}
    (hc : isWide c = true) : p c = false :=
  Bool.eq_false_iff.mpr fun h => ne_of_isWide hc (hp c h) rfl

/-- A character of the ASCII range is a single byte. -/
theorem utf8Size_of_not_wide {c : Char} (h : isWide c = false) : c.utf8Size = 1 := by
  have hrange : c.val.toNat < 0x80 := Nat.lt_of_not_le (of_decide_eq_false h)
  exact Char.utf8Size_eq_one_iff.mpr (UInt32.le_iff_toNat_le.mpr (Nat.le_of_lt_succ hrange))

theorem octetsOf_of_not_wide {c : Char} (h : isWide c = false) : octetsOf c = [c] := by
  have hrange : c.val.toNat < 0x80 := Nat.lt_of_not_le (of_decide_eq_false h)
  have hbyte : (UInt8.ofNat c.val.toNat).toNat = c.toNat := by
    rw [UInt8.toNat_ofNat']
    exact Nat.mod_eq_of_lt (by omega)
  rw [octetsOf, String.utf8EncodeChar, if_pos (by omega), List.map_singleton, hbyte,
    Char.ofNat_toNat]

/-- All octets of a character outside of the ASCII range are outside of it. -/
theorem octetsOf_wide {c x : Char} (h : isWide c = true) (hx : x ∈ octetsOf c) :
    isWide x = true := by
  have hrange : 0x80 ≤ c.val.toNat := of_decide_eq_true h
  have hbyte : ∀ n : Nat, 0x80 ≤ n → n < 0x100 →
      isWide (Char.ofNat (UInt8.ofNat n).toNat) = true := by
    intro n hlow hhigh
    have hn : (UInt8.ofNat n).toNat = n := by
      rw [UInt8.toNat_ofNat']
      exact Nat.mod_eq_of_lt hhigh
    have hvalid : n.isValidChar := Or.inl (by omega)
    rw [hn, isWide, Char.ofNat, dif_pos hvalid]
    exact decide_eq_true hlow
  rw [octetsOf, String.utf8EncodeChar, if_neg (by omega)] at hx
  split at hx
  · simp only [List.map_cons, List.map_nil, List.mem_cons, List.not_mem_nil, or_false] at hx
    rcases hx with rfl | rfl <;> exact hbyte _ (by omega) (by omega)
  split at hx
  · simp only [List.map_cons, List.map_nil, List.mem_cons, List.not_mem_nil, or_false] at hx
    rcases hx with rfl | rfl | rfl <;> exact hbyte _ (by omega) (by omega)
  · simp only [List.map_cons, List.map_nil, List.mem_cons, List.not_mem_nil, or_false] at hx
    rcases hx with rfl | rfl | rfl | rfl <;> exact hbyte _ (by omega) (by omega)

theorem length_octetsOf (c : Char) : (octetsOf c).length = c.utf8Size := by
  rw [octetsOf, List.length_map, String.length_utf8EncodeChar]

theorem octetsOf_ne_nil (c : Char) : octetsOf c ≠ [] := by
  intro h
  have hlength := length_octetsOf c
  have := c.utf8Size_pos
  rw [h, List.length_nil] at hlength
  omega

theorem exists_octetsOf_of_wide {c : Char} (h : isWide c = true) :
    ∃ x v, octetsOf c = x :: v ∧ isWide x = true := by
  obtain ⟨x, v, hx⟩ := List.exists_cons_of_ne_nil (octetsOf_ne_nil c)
  exact ⟨x, v, hx, octetsOf_wide h (hx ▸ List.mem_cons_self)⟩

/-- Only the first octet of a character may be in the ASCII range. -/
theorem exists_octetsOf (c : Char) :
    ∃ x v, octetsOf c = x :: v ∧ ∀ y ∈ v, isWide y = true := by
  cases hc : isWide c with
  | false => exact ⟨c, [], octetsOf_of_not_wide hc, by simp⟩
  | true =>
    obtain ⟨x, v, hx⟩ := List.exists_cons_of_ne_nil (octetsOf_ne_nil c)
    exact ⟨x, v, hx, fun y hy => octetsOf_wide hc (hx ▸ List.mem_cons_of_mem x hy)⟩

@[simp] theorem octets_nil : octets [] = [] := rfl

@[simp] theorem octets_cons (c : Char) (t : Text) : octets (c :: t) = octetsOf c ++ octets t := rfl

theorem octets_cons_of_not_wide {c : Char} (h : isWide c = false) (t : Text) :
    octets (c :: t) = c :: octets t := by
  rw [octets_cons, octetsOf_of_not_wide h, List.singleton_append]

@[simp] theorem octets_append (t u : Text) : octets (t ++ u) = octets t ++ octets u :=
  List.flatMap_append

/-- The first octet of a text is the first character, as far as the ASCII range goes. -/
theorem exists_head_octets (ch : Char) (t : Text) : ∃ x, (octets (ch :: t)).head? = some x ∧
    ∀ y, isWide y = false → (x = y ↔ ch = y) := by
  cases hch : isWide ch with
  | false => exact ⟨ch, by rw [octets_cons_of_not_wide hch]; rfl, fun _ _ => Iff.rfl⟩
  | true =>
    obtain ⟨x, v, hx, hwide⟩ := exists_octetsOf_of_wide hch
    refine ⟨x, by rw [octets_cons, hx]; rfl, fun y hy => ?_⟩
    exact iff_of_false (ne_of_isWide hwide hy) (ne_of_isWide hch hy)

/-- What holds in the ASCII range only holds of the octet in front if it holds of the character in
front. -/
theorem any_head?_octets {p : Char → Bool} (hp : ∀ x, p x = true → isWide x = false) (t : Text) :
    (octets t).head?.any p = t.head?.any p := by
  cases t with
  | nil => rfl
  | cons c t =>
    cases hc : isWide c with
    | false =>
      rw [octets_cons_of_not_wide hc]
      rfl
    | true =>
      obtain ⟨x, v, hx, hfront⟩ := exists_octetsOf_of_wide hc
      rw [octets_cons, hx]
      exact (eq_false_of_isWide hp hfront).trans (eq_false_of_isWide hp hc).symm

/-- The same at the other end. -/
theorem any_getLast?_octets {p : Char → Bool} (hp : ∀ x, p x = true → isWide x = false) (t : Text) :
    (octets t).getLast?.any p = t.getLast?.any p := by
  obtain rfl | ⟨t, c, rfl⟩ := t.eq_nil_or_concat'
  · rfl
  cases hc : isWide c with
  | false =>
    rw [octets_append, octets_cons_of_not_wide hc, octets_nil, List.getLast?_concat,
      List.getLast?_concat]
  | true =>
    obtain ⟨v, x, hx⟩ := (octetsOf c).eq_nil_or_concat'.resolve_left (octetsOf_ne_nil c)
    have hback : isWide x = true :=
      octetsOf_wide hc (hx ▸ List.mem_append_right v List.mem_cons_self)
    rw [octets_append, octets_cons, octets_nil, List.append_nil, hx, ← List.append_assoc,
      List.getLast?_concat, List.getLast?_concat]
    exact (eq_false_of_isWide hp hback).trans (eq_false_of_isWide hp hc).symm

@[simp] theorem length_octets (t : Text) : (octets t).length = bytes t := by
  induction t with
  | nil => rfl
  | cons c t ih => rw [octets_cons, List.length_append, ih, length_octetsOf, bytes_cons]

end Text
end UtilityCss
