import UtilityCss.Proofs.Bytewise.Text
import UtilityCss.Value.Expression

/-!
# The first number by octets

The first number of an expression is looked for octet by octet, so the search also stops inside of
characters.  It cuts the expression only where a letter or a number begins and where a word ends,
and neither is inside of a character: none of its octets is a letter or a digit there.
-/

namespace UtilityCss
namespace Bytewise

open Text (isWide octets octetsOf bytes)

/-! ## The search -/

/-- May the octet be part of a word? -/
def isWordOctet (b : Char) : Bool := b.isAlphanum || b = '-'

/-- Does a word go on behind this octet? -/
def joinsWord (b : Char) : Bool := b.isAlpha || b = '-'

section

variable (source : Text)

/-- The octet at an offset. -/
def octet? (pos : Nat) : Option Char := (octets source)[pos]?

/-- The offset behind the word at an offset.  The first number bounds how long it may be. -/
def wordEnd : Nat → Nat → Nat
  | 0, pos => pos
  | fuel + 1, pos => if (octet? source pos).any isWordOctet then wordEnd fuel (pos + 1) else pos

/-- Does a number start at the offset? -/
def startsNumber (pos : Nat) : Bool :=
  (octet? source pos).any Char.isDigit ||
    (octet? source pos).any (· = '.') && (octet? source (pos + 1)).any Char.isDigit

/-- The class of the first number at an offset or behind it that is outside references. -/
def firstUnit? : Nat → Nat → Nat → Nat → Option (Option Value.UnitClass)
  | 0, _, _, _ => some none
  | fuel + 1, reference, depth, pos =>
    match octet? source pos with
    | none => some none
    | some b =>
      if b = '(' then firstUnit? fuel reference (depth + 1) (pos + 1)
      else if b = ')' then
        firstUnit? fuel (if reference = depth then 0 else reference) (depth - 1) (pos + 1)
      else if reference = 0 && b.isAlpha then do
        let stop := wordEnd source source.length pos
        let word ← source.between? pos stop
        let opens := (octet? source stop).any (· = '(')
        firstUnit? fuel
          (if word ∈ Value.referenceFunctions && opens then depth + 1 else reference) depth stop
      else if reference = 0 && startsNumber source pos
          && !(decide (0 < pos) && (octet? source (pos - 1)).any joinsWord) then do
        match Value.number? (← source.from? pos) with
        | some (_, rest) => return some (.ofUnit (Value.unitAt rest))
        | none => firstUnit? fuel reference depth (pos + 1)
      else firstUnit? fuel reference depth (pos + 1)

end

/-! ## Octets around a place -/

variable {source a t : Text}

theorem isWide_of_isWordOctet {c : Char} (h : isWordOctet c = true) : isWide c = false := by
  rw [isWordOctet, Bool.or_eq_true, decide_eq_true_eq] at h
  rcases h with h | rfl
  · have hcases : c.isAlpha = true ∨ c.isDigit = true := (Bool.or_eq_true ..).mp h
    exact hcases.elim Text.isWide_of_isAlpha Text.isWide_of_isDigit
  · rfl

theorem isWide_of_joinsWord {c : Char} (h : joinsWord c = true) : isWide c = false := by
  rw [joinsWord, Bool.or_eq_true, decide_eq_true_eq] at h
  rcases h with h | rfl
  · exact Text.isWide_of_isAlpha h
  · rfl

theorem isWide_of_eq {x c : Char} (hx : isWide x = false) (h : decide (c = x) = true) :
    isWide c = false := by
  rwa [of_decide_eq_true h]

/-- The octet at a place is the first of what is ahead. -/
theorem octet?_bytes (hsource : source = a ++ t) : octet? source (bytes a) = (octets t).head? := by
  rw [octet?, hsource, Text.octets_append, ← Text.length_octets,
    List.getElem?_append_right (Nat.le_refl _), Nat.sub_self, List.head?_eq_getElem?]

theorem any_octet? {p : Char → Bool} (hp : ∀ x, p x = true → isWide x = false)
    (hsource : source = a ++ t) : (octet? source (bytes a)).any p = t.head?.any p := by
  rw [octet?_bytes hsource, Text.any_head?_octets hp]

/-- The octet behind a place is the last of what has been read. -/
theorem any_octet?_behind {p : Char → Bool} (hp : ∀ x, p x = true → isWide x = false)
    (hsource : source = a ++ t) :
    (decide (0 < bytes a) && (octet? source (bytes a - 1)).any p) = a.getLast?.any p := by
  rw [← Text.any_getLast?_octets hp, octet?, hsource, Text.octets_append, ← Text.length_octets,
    List.getLast?_eq_getElem?]
  by_cases hpos : 0 < (octets a).length
  · rw [decide_eq_true hpos, Bool.true_and, List.getElem?_append_left (by omega)]
  · obtain hnil : octets a = [] := List.eq_nil_of_length_eq_zero (by omega)
    rw [hnil]
    rfl

/-- A number starts where the characters say so. -/
theorem startsNumber_bytes {c : Char} (hsource : source = a ++ c :: t) :
    startsNumber source (bytes a) = Value.startsNumber c t := by
  have hdigit : (octet? source (bytes a)).any Char.isDigit = c.isDigit :=
    any_octet? (fun _ => Text.isWide_of_isDigit) hsource
  have hpoint : (octet? source (bytes a)).any (· = '.') = decide (c = '.') :=
    any_octet? (fun _ => isWide_of_eq rfl) hsource
  rw [startsNumber, hdigit, hpoint, Value.startsNumber]
  by_cases hc : c = '.'
  · have hnext : (octet? source (bytes (a ++ [c]))).any Char.isDigit = t.head?.any Char.isDigit :=
      any_octet? (fun _ => Text.isWide_of_isDigit) (by simp [hsource])
    rw [Text.bytes_append, hc] at hnext
    have hstart : Text.startsWithChar t Char.isDigit = t.head?.any Char.isDigit := by
      cases t <;> rfl
    rw [hstart, ← hnext]
    rfl
  · rw [decide_eq_false hc, Bool.false_and, Bool.false_and]

/-- The end of the word at a place. -/
theorem wordEnd_bytes {w : Text} : ∀ {fuel : Nat} {a : Text}, source = a ++ (w ++ t) →
    (∀ c ∈ w, isWordOctet c = true) → t.head?.any isWordOctet = false → w.length ≤ fuel →
    wordEnd source fuel (bytes a) = bytes (a ++ w) := by
  induction w with
  | nil =>
    intro fuel a hsource _ hend _
    rw [List.append_nil]
    cases fuel with
    | zero => rfl
    | succ fuel =>
      rw [wordEnd, any_octet? (fun _ => isWide_of_isWordOctet) hsource, List.nil_append, hend,
        if_neg Bool.false_ne_true]
  | cons c w ih =>
    intro fuel a hsource hw hend hfuel
    obtain ⟨fuel, rfl⟩ := Nat.exists_eq_succ_of_ne_zero (Nat.ne_of_gt (Nat.zero_lt_of_lt hfuel))
    obtain ⟨hc, hw⟩ := List.forall_mem_cons.mp hw
    have hnext : bytes a + 1 = bytes (a ++ [c]) := by
      rw [Text.bytes_append, Text.bytes_cons, Text.utf8Size_of_not_wide (isWide_of_isWordOctet hc)]
      rfl
    rw [wordEnd, any_octet? (fun _ => isWide_of_isWordOctet) hsource, List.cons_append,
      List.head?_cons, Option.any_some, if_pos hc, hnext,
      ih (by simp [hsource]) hw hend (Nat.le_of_succ_le_succ hfuel), List.append_assoc]
    rfl

/-! ## The search along the characters -/

/-- The search between words. -/
theorem firstUnitFrom_cons (reference depth : Nat) (before : Option Char) (c : Char) (t : Text) :
    Value.firstUnitFrom reference depth before [] (c :: t) =
      if c = '(' then Value.firstUnitFrom reference (depth + 1) (some c) [] t
      else if c = ')' then
        Value.firstUnitFrom (if reference = depth then 0 else reference) (depth - 1) (some c) [] t
      else if reference = 0 && c.isAlpha then Value.firstUnitFrom reference depth (some c) [c] t
      else if reference = 0 && Value.startsNumber c t && !before.any joinsWord then
        match Value.number? (c :: t) with
        | some (_, rest) => some (.ofUnit (Value.unitAt rest))
        | none => Value.firstUnitFrom reference depth (some c) [] t
      else Value.firstUnitFrom reference depth (some c) [] t := by
  rw [Value.firstUnitFrom]
  rfl

/-- A word is read to its end. -/
theorem firstUnitFrom_append {reference depth : Nat} {w : Text} : ∀ {a word : Text}, word ≠ [] →
    (∀ c ∈ w, isWordOctet c = true) → Value.firstUnitFrom reference depth a.getLast? word (w ++ t) =
      Value.firstUnitFrom reference depth (a ++ w).getLast? (w.reverse ++ word) t := by
  induction w with
  | nil =>
    intro a word _ _
    rw [List.append_nil]
    rfl
  | cons c w ih =>
    intro a word hword hw
    obtain ⟨hc, hw⟩ := List.forall_mem_cons.mp hw
    have hlast : (a ++ [c]).getLast? = some c := List.getLast?_concat
    have hfurther := ih (a := a ++ [c]) (List.cons_ne_nil c word) hw
    rw [hlast] at hfurther
    have hempty : word.isEmpty = false := List.isEmpty_eq_false_iff.mpr hword
    rw [List.cons_append, Value.firstUnitFrom, hempty, if_pos (by simpa [isWordOctet] using hc),
      hfurther, List.append_assoc, List.reverse_cons, List.append_assoc]
    rfl

/-- Behind a word the search goes on between words, in a reference if the word opens one. -/
theorem firstUnitFrom_word {depth : Nat} {before : Option Char} {word : Text}
    (hend : t.head?.any isWordOctet = false) : Value.firstUnitFrom 0 depth before word t =
      Value.firstUnitFrom
        (if word.reverse ∈ Value.referenceFunctions && t.head?.any (· = '(') then depth + 1 else 0)
        depth before [] t := by
  cases t with
  | nil => rfl
  | cons c t =>
    have hend : (c.isAlphanum || decide (c = '-')) = false := hend
    rw [firstUnitFrom_cons, Value.firstUnitFrom, hend, Bool.and_false, if_neg Bool.false_ne_true]
    by_cases hopen : c = '('
    · rw [if_pos hopen, if_pos hopen]
      simp [hopen]
    · have hfalse : (List.head? (c :: t)).any (fun x => decide (x = '(')) = false :=
        decide_eq_false hopen
      rw [if_neg hopen, if_neg hopen, hfalse, Bool.and_false, if_neg Bool.false_ne_true]
      rfl

/-- Nothing is found among octets outside of the ASCII range. -/
theorem firstUnit?_wide {reference depth : Nat} {v : Text} : ∀ {u r : Text} {fuel : Nat},
    octets source = u ++ (v ++ r) → (∀ b ∈ v, isWide b = true) →
    firstUnit? source (fuel + v.length) reference depth u.length =
      firstUnit? source fuel reference depth (u ++ v).length := by
  induction v with
  | nil =>
    intro u r fuel _ _
    rw [List.append_nil]
    rfl
  | cons b v ih =>
    intro u r fuel hsource hwide
    obtain ⟨hb, hwide⟩ := List.forall_mem_cons.mp hwide
    have hoctet : octet? source u.length = some b := by
      rw [octet?, hsource, List.getElem?_append_right (Nat.le_refl _), Nat.sub_self]
      rfl
    have halpha : b.isAlpha = false := Text.eq_false_of_isWide (fun _ => Text.isWide_of_isAlpha) hb
    have hstarts : startsNumber source u.length = false := by
      rw [startsNumber, hoctet, Option.any_some, Option.any_some,
        Text.eq_false_of_isWide (fun _ => Text.isWide_of_isDigit) hb,
        Text.eq_false_of_isWide (fun _ => isWide_of_eq rfl) hb]
      rfl
    have hnext : u.length + 1 = (u ++ [b]).length := by
      rw [List.length_append, List.length_singleton]
    rw [List.length_cons, ← Nat.add_assoc, firstUnit?, hoctet]
    dsimp only
    rw [if_neg (Text.ne_of_isWide hb (by decide)), if_neg (Text.ne_of_isWide hb (by decide)),
      halpha, Bool.and_false, if_neg Bool.false_ne_true, hstarts, Bool.and_false, Bool.false_and,
      if_neg Bool.false_ne_true, hnext, ih (r := r) (by simp [hsource]) hwide, List.append_assoc]
    rfl

/-- Along the characters nothing is found outside of the ASCII range either. -/
theorem firstUnitFrom_wide {c : Char} (hc : isWide c = true) (reference depth : Nat)
    (before : Option Char) (t : Text) : Value.firstUnitFrom reference depth before [] (c :: t) =
      Value.firstUnitFrom reference depth (some c) [] t := by
  have halpha : c.isAlpha = false := Text.eq_false_of_isWide (fun _ => Text.isWide_of_isAlpha) hc
  have hstarts : Value.startsNumber c t = false := by
    rw [Value.startsNumber, Text.eq_false_of_isWide (fun _ => Text.isWide_of_isDigit) hc,
      decide_eq_false (Text.ne_of_isWide hc (by decide))]
    rfl
  rw [firstUnitFrom_cons, if_neg (Text.ne_of_isWide hc (by decide)),
    if_neg (Text.ne_of_isWide hc (by decide)), halpha, Bool.and_false, if_neg Bool.false_ne_true,
    hstarts, Bool.and_false, Bool.false_and, if_neg Bool.false_ne_true]

/-- The word that a text begins with, and what is behind it. -/
theorem exists_word (t : Text) : ∃ w v : Text, t = w ++ v ∧ (∀ c ∈ w, isWordOctet c = true) ∧
    v.head?.any isWordOctet = false := by
  induction t with
  | nil => exact ⟨[], [], rfl, fun _ h => absurd h List.not_mem_nil, rfl⟩
  | cons c t ih =>
    cases hc : isWordOctet c with
    | false => exact ⟨[], c :: t, rfl, fun _ h => absurd h List.not_mem_nil, hc⟩
    | true =>
      obtain ⟨w, v, rfl, hw, hend⟩ := ih
      exact ⟨c :: w, v, rfl, List.forall_mem_cons.mpr ⟨hc, hw⟩, hend⟩

/-- A character outside of the ASCII range is passed over, octet by octet. -/
theorem firstUnit?_wide_char {c : Char} (hc : isWide c = true) (hsource : source = a ++ c :: t)
    {fuel reference depth : Nat} (hfuel : c.utf8Size ≤ fuel) :
    firstUnit? source fuel reference depth (bytes a) =
      firstUnit? source (fuel - c.utf8Size) reference depth (bytes (a ++ [c])) := by
  have hoctets : octets source = octets a ++ (octetsOf c ++ octets t) := by
    rw [hsource, Text.octets_append, Text.octets_cons]
  have hpos : bytes (a ++ [c]) = bytes a + c.utf8Size := Text.bytes_append a [c]
  have hskip : firstUnit? source (fuel - c.utf8Size + (octetsOf c).length) reference depth
      (octets a).length = firstUnit? source (fuel - c.utf8Size) reference depth
      (octets a ++ octetsOf c).length :=
    firstUnit?_wide hoctets fun b hb => Text.octetsOf_wide hc hb
  rwa [List.length_append, Text.length_octets, Text.length_octetsOf, Nat.sub_add_cancel hfuel,
    ← hpos] at hskip

/-- The word that begins at a place is cut out whole. -/
theorem exists_word_bytes {c : Char} (halpha : c.isAlpha = true) (hsource : source = a ++ c :: t) :
    ∃ w v, t = w ++ v ∧ (∀ x ∈ w, isWordOctet x = true) ∧ v.head?.any isWordOctet = false ∧
      wordEnd source source.length (bytes a) = bytes (a ++ c :: w) ∧
      source.between? (bytes a) (bytes (a ++ c :: w)) = some (c :: w) := by
  -- the word ends in front of the first character that is no part of it
  obtain ⟨w, v, rfl, hw, hend⟩ := exists_word t
  have hw' : ∀ x ∈ c :: w, isWordOctet x = true := List.forall_mem_cons.mpr
    ⟨(Bool.or_eq_true ..).mpr (Or.inl ((Bool.or_eq_true ..).mpr (Or.inl halpha))), hw⟩
  have hsplit : source = a ++ (c :: w ++ v) := hsource
  refine ⟨w, v, rfl, hw, hend, wordEnd_bytes hsplit hw' hend ?_, ?_⟩
  · rw [hsplit, List.length_append, List.length_append]
    omega
  · rw [hsplit, Text.bytes_append]
    exact Text.between?_append a (c :: w) v

/-- Along the characters the search gets over a word, into a reference if the word opens one. -/
theorem firstUnitFrom_over_word {c : Char} {w v : Text} (hw : ∀ x ∈ w, isWordOctet x = true)
    (hend : v.head?.any isWordOctet = false) (depth : Nat) (a : Text) :
    Value.firstUnitFrom 0 depth (some c) [c] (w ++ v) =
      Value.firstUnitFrom
        (if c :: w ∈ Value.referenceFunctions && v.head?.any (· = '(') then depth + 1 else 0)
        depth (a ++ c :: w).getLast? [] v := by
  have hread : Value.firstUnitFrom 0 depth (a ++ [c]).getLast? [c] (w ++ v) =
      Value.firstUnitFrom 0 depth (a ++ [c] ++ w).getLast? (w.reverse ++ [c]) v :=
    firstUnitFrom_append (List.cons_ne_nil c []) hw
  rw [List.getLast?_concat, firstUnitFrom_word hend, List.append_assoc, List.reverse_append,
    List.reverse_reverse] at hread
  exact hread

/-- From a place between two words on, the search by octets finds what the search along the
characters finds, and all its cuts are between characters. -/
theorem firstUnit?_bytes : ∀ (t : Text) {fuel reference depth : Nat} {a : Text}, bytes t < fuel →
    source = a ++ t → firstUnit? source fuel reference depth (bytes a) =
      some (Value.firstUnitFrom reference depth a.getLast? [] t)
  | _, 0, _, _, _, hfuel, _ => absurd hfuel (Nat.not_lt_zero _)
  | [], fuel + 1, reference, depth, a, _, hsource => by
    rw [firstUnit?, octet?_bytes hsource]
    rfl
  | c :: t, fuel + 1, reference, depth, a, hfuel, hsource => by
    have hlast : (a ++ [c]).getLast? = some c := List.getLast?_concat
    have hbehind : source = (a ++ [c]) ++ t := by simp [hsource]
    rw [Text.bytes_cons] at hfuel
    cases hc : isWide c with
    | true =>
      rw [firstUnit?_wide_char hc hsource (by omega), firstUnit?_bytes t (by omega) hbehind,
        firstUnitFrom_wide hc, hlast]
    | false =>
      have hpos : bytes (a ++ [c]) = bytes a + 1 := by
        rw [Text.bytes_append, Text.bytes_cons, Text.utf8Size_of_not_wide hc]
        rfl
      rw [Text.utf8Size_of_not_wide hc] at hfuel
      have step (reference depth : Nat) : firstUnit? source fuel reference depth (bytes a + 1) =
          some (Value.firstUnitFrom reference depth (some c) [] t) := by
        rw [← hpos, firstUnit?_bytes t (by omega) hbehind, hlast]
      have hoctet : octet? source (bytes a) = some c := by
        rw [octet?_bytes hsource, Text.octets_cons_of_not_wide hc]
        rfl
      rw [firstUnitFrom_cons, firstUnit?, hoctet]
      dsimp only
      rw [startsNumber_bytes hsource, any_octet?_behind (fun _ => isWide_of_joinsWord) hsource]
      split
      · exact step _ _
      split
      · exact step _ _
      split
      next hword =>
        rw [Bool.and_eq_true, decide_eq_true_eq] at hword
        obtain ⟨rfl, halpha⟩ := hword
        obtain ⟨w, v, rfl, hw, hend, hstop, hcut⟩ := exists_word_bytes halpha hsource
        have hahead : source = (a ++ c :: w) ++ v := by simp [hsource]
        rw [Text.bytes_append] at hfuel
        rw [hstop, hcut, any_octet? (fun _ => isWide_of_eq rfl) hahead,
          firstUnitFrom_over_word hw hend depth a]
        simp only [Option.bind_eq_bind, Option.bind_some]
        exact firstUnit?_bytes v (by omega) hahead
      split
      next =>
        have hfrom : source.from? (bytes a) = some (c :: t) := by rw [hsource, Text.from?_append]
        rw [hfrom]
        simp only [Option.bind_eq_bind, Option.bind_some]
        cases Value.number? (c :: t) with
        | none => exact step _ _
        | some r => rfl
      · exact step _ _
termination_by t => t.length

/-- The first number of an expression is found by octets as well. -/
theorem firstUnit?_eq (t : Text) :
    firstUnit? t (bytes t + 1) 0 0 0 = some (Value.firstUnit? t) :=
  firstUnit?_bytes t (a := []) (Nat.lt_succ_self _) rfl

end Bytewise
end UtilityCss
