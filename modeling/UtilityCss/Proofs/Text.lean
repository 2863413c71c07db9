import UtilityCss.Text.Blank
import Mathlib.Data.List.Basic
import Mathlib.Data.List.DropRight

/-!
# Cutting texts

What the operations of `Text` find, said without the operations: a text that begins
or ends with another one is an append, and cutting at a character splits the text
around the first or the last character of the class.

Trimming drops the blanks at both ends and nothing else, so it leaves a text as it is
exactly if there are none.
-/

namespace UtilityCss
namespace Text

/-- A statement about the characters of a text is decided along the text.  Where all
statements about characters can be decided, that instance would be tried first, and would
run over every character there is. -/
instance (priority := 2000) decidableForallMem (p : Char → Prop) [DecidablePred p] (t : Text) :
    Decidable (∀ ch ∈ t, p ch) :=
  List.decidableBAll p t

/-- Characters of different classes differ. -/
theorem ne_of_class {p : Char → Bool} {c x : Char} (hc : p c = true) (hx : p x = false) : c ≠ x :=
  ne_of_apply_ne p (by rw [hc, hx]; decide)

/-- Only the empty text has no bytes. -/
theorem bytes_pos {t : Text} (h : t ≠ []) : 0 < bytes t := by
  obtain ⟨c, u, rfl⟩ := List.exists_cons_of_ne_nil h
  rw [bytes_cons]
  have := Char.utf8Size_pos c
  omega

/-- A character of two texts in a row belongs to the one or to the other. -/
theorem append_eq_append_cons {t u a b : Text} {ch : Char} (h : t ++ u = a ++ ch :: b) :
    (∃ v, t = a ++ ch :: v ∧ b = v ++ u) ∨ ∃ v, a = t ++ v ∧ u = v ++ ch :: b := by
  rcases List.append_eq_append_iff.mp h with ⟨v, ha, hu⟩ | ⟨v, ht, hb⟩
  · exact Or.inr ⟨v, ha, hu⟩
  · cases v with
    | nil => exact Or.inr ⟨[], by rw [ht, List.append_nil, List.append_nil], hb.symm⟩
    | cons x v =>
      obtain ⟨rfl, rfl⟩ := List.cons.inj hb
      exact Or.inl ⟨v, ht, rfl⟩

theorem startsWithChar_cons (c : Char) (t : Text) (p : Char → Bool) :
    startsWithChar (c :: t) p = p c := rfl

theorem startsWith_iff {t lead : Text} : startsWith t lead = true ↔ ∃ u, t = lead ++ u := by
  simp only [startsWith, Option.isSome_iff_exists, dropLead?_eq_some_iff]

theorem endsWith_iff {t tail : Text} : endsWith t tail = true ↔ ∃ u, t = u ++ tail := by
  simp only [endsWith, Option.isSome_iff_exists, dropTail?_eq_some_iff]

/-- The first cut is in front of the rest of the text and behind what is not of the class. -/
theorem cutAt?_eq_some_iff {p : Char → Bool} {t a b : Text} :
    cutAt? p t = some (a, b) ↔
      ∃ ch, p ch = true ∧ (∀ x ∈ a, p x = false) ∧ t = a ++ ch :: b := by
  induction t generalizing a with
  | nil => simp [cutAt?]
  | cons c t ih =>
    cases hc : p c with
    | true =>
      have hcut : cutAt? p (c :: t) = some ([], t) := by rw [cutAt?, if_pos hc]
      rw [hcut]
      constructor
      · intro h
        obtain ⟨rfl, rfl⟩ : [] = a ∧ t = b := by simpa using h
        exact ⟨c, hc, by simp, rfl⟩
      · rintro ⟨ch, -, ha, ht⟩
        cases a with
        | nil =>
          obtain ⟨-, rfl⟩ := List.cons.inj ht
          rfl
        | cons x a =>
          obtain ⟨rfl, -⟩ := List.cons.inj ht
          have := ha c (List.mem_cons_self ..)
          rw [hc] at this
          exact absurd this (by decide)
    | false =>
      rw [cutAt?, if_neg (by rw [hc]; exact Bool.false_ne_true)]
      constructor
      · intro h
        obtain ⟨⟨a', b'⟩, hab, heq⟩ := Option.map_eq_some_iff.mp h
        obtain ⟨rfl, rfl⟩ : c :: a' = a ∧ b' = b := by simpa using heq
        obtain ⟨ch, hch, ha, rfl⟩ := ih.mp hab
        refine ⟨ch, hch, ?_, rfl⟩
        intro x hx
        rcases List.mem_cons.mp hx with rfl | hx
        · exact hc
        · exact ha x hx
      · rintro ⟨ch, hch, ha, ht⟩
        cases a with
        | nil =>
          obtain ⟨rfl, -⟩ := List.cons.inj ht
          rw [hc] at hch
          exact absurd hch (by decide)
        | cons x a =>
          obtain ⟨rfl, rfl⟩ := List.cons.inj ht
          have hab := ih.mpr ⟨ch, hch, fun x hx => ha x (List.mem_cons_of_mem _ hx), rfl⟩
          rw [hab]
          rfl

/-- The last cut is behind the front of the text and in front of what is not of the class. -/
theorem cutAtLast?_eq_some_iff {p : Char → Bool} {t a b : Text} :
    cutAtLast? p t = some (a, b) ↔
      ∃ ch, p ch = true ∧ (∀ x ∈ b, p x = false) ∧ t = a ++ ch :: b := by
  rw [cutAtLast?, Option.map_eq_some_iff]
  constructor
  · rintro ⟨⟨u, v⟩, huv, heq⟩
    obtain ⟨rfl, rfl⟩ : v.reverse = a ∧ u.reverse = b := by simpa using heq
    obtain ⟨ch, hch, hu, ht⟩ := cutAt?_eq_some_iff.mp huv
    refine ⟨ch, hch, fun x hx => hu x (List.mem_reverse.mp hx), ?_⟩
    have hrev := congrArg List.reverse ht
    rwa [List.reverse_reverse, List.reverse_append, List.reverse_cons, List.append_assoc,
      List.singleton_append] at hrev
  · rintro ⟨ch, hch, hb, rfl⟩
    refine ⟨(b.reverse, a.reverse), cutAt?_eq_some_iff.mpr ⟨ch, hch, ?_, ?_⟩, by simp⟩
    · exact fun x hx => hb x (List.mem_reverse.mp hx)
    · rw [List.reverse_append, List.reverse_cons, List.append_assoc, List.singleton_append]

/-! ## Trimming -/

/-- Nothing is dropped from the front, nor from the end, of a text without blanks there. -/
theorem trim_eq_self_iff {t : Text} :
    trim t = t ↔ t.dropWhile isBlank = t ∧ t.reverse.dropWhile isBlank = t.reverse := by
  constructor
  · intro h
    have hfront : t.dropWhile isBlank = t := by
      refine (List.dropWhile_suffix isBlank).eq_of_length_le ?_
      have hlength := congrArg List.length h
      have hback := (List.dropWhile_suffix isBlank (l := (t.dropWhile isBlank).reverse)).length_le
      rw [trim, trimBy, List.length_reverse] at hlength
      rw [List.length_reverse] at hback
      omega
    rw [trim, trimBy, hfront] at h
    exact ⟨hfront, by rw [← List.reverse_reverse (List.dropWhile _ _), h]⟩
  · rintro ⟨hfront, hback⟩
    rw [trim, trimBy, hfront, hback, List.reverse_reverse]

/-- The first character of a text without the blanks around it is the first that is no blank. -/
theorem dropWhile_of_trim {t u : Text} {c : Char} (h : trim t = c :: u) :
    ∃ v, t.dropWhile isBlank = c :: v := by
  obtain ⟨v, hv⟩ := List.rdropWhile_prefix isBlank (t.dropWhile isBlank)
  have htrim : trim t ++ v = t.dropWhile isBlank := hv
  exact ⟨u ++ v, by rw [← htrim, h, List.cons_append]⟩

/-- Trimming once is enough. -/
theorem trim_trim (t : Text) : trim (trim t) = trim t := by
  have hback : (trim t).reverse.dropWhile isBlank = (trim t).reverse := by
    rw [trim, trimBy, List.reverse_reverse, List.dropWhile_idempotent]
  refine trim_eq_self_iff.mpr ⟨?_, hback⟩
  cases htrim : trim t with
  | nil => rfl
  | cons c u =>
    obtain ⟨v, hv⟩ := dropWhile_of_trim htrim
    have hc : ¬isBlank c = true := by
      have hidempotent := List.dropWhile_idempotent isBlank t
      rw [hv] at hidempotent
      intro hblank
      rw [List.dropWhile_cons_of_pos hblank] at hidempotent
      have hlength := (List.dropWhile_suffix isBlank (l := v)).length_le
      rw [hidempotent, List.length_cons] at hlength
      omega
    rw [List.dropWhile_cons_of_neg hc]

/-- A text without blanks is left as it is. -/
theorem trim_eq_self {t : Text} (h : ∀ ch ∈ t, isBlank ch = false) : trim t = t := by
  have front : ∀ {u : Text}, (∀ ch ∈ u, isBlank ch = false) → u.dropWhile isBlank = u := by
    intro u hu
    cases u with
    | nil => rfl
    | cons ch u => rw [List.dropWhile_cons_of_neg (by simp [hu ch (List.mem_cons_self ..)])]
  exact trim_eq_self_iff.mpr ⟨front h, front (by simpa using h)⟩

theorem trim_append {t u : Text} (ht : trim t = t) (hu : trim u = u) :
    trim (t ++ u) = t ++ u := by
  obtain ⟨htfront, htback⟩ := trim_eq_self_iff.mp ht
  obtain ⟨hufront, huback⟩ := trim_eq_self_iff.mp hu
  have append : ∀ {a b : Text}, a.dropWhile isBlank = a → b.dropWhile isBlank = b →
      (a ++ b).dropWhile isBlank = a ++ b := by
    intro a b ha hb
    cases a with
    | nil => exact hb
    | cons ch a => rw [List.dropWhile_append, ha, if_neg (by simp)]
  refine trim_eq_self_iff.mpr ⟨append htfront hufront, ?_⟩
  rw [List.reverse_append]
  exact append huback htback

/-- Blanks at the end of a text that has none there are no text. -/
theorem eq_nil_of_trimEnd {t u b : Text} (htrim : trimEnd t = t) (ht : t = u ++ b)
    (hb : ∀ ch ∈ b, isBlank ch = true) : b = [] := by
  have hback : t.reverse.dropWhile isBlank = t.reverse := by
    rw [← List.reverse_reverse (List.dropWhile _ _)]
    exact congrArg List.reverse htrim
  rw [ht, List.reverse_append, List.dropWhile_append_of_pos (by simpa using hb)] at hback
  have hlength := congrArg List.length hback
  have hle := (List.dropWhile_suffix isBlank (l := u.reverse)).length_le
  simp only [List.length_append, List.length_reverse] at hlength hle
  exact List.length_eq_zero_iff.mp (by omega)

theorem eq_nil_of_trim {t u b : Text} (htrim : trim t = t) (ht : t = u ++ b)
    (hb : ∀ ch ∈ b, isBlank ch = true) : b = [] := by
  refine eq_nil_of_trimEnd ?_ ht hb
  rw [trimEnd, trimEndBy, (trim_eq_self_iff.mp htrim).2, List.reverse_reverse]

/-- There are no blanks in front of a text that begins with none. -/
theorem eq_nil_of_trim_front {t b u : Text} (htrim : trim t = t) (ht : t = b ++ u)
    (hb : ∀ ch ∈ b, isBlank ch = true) : b = [] := by
  have hfront := (trim_eq_self_iff.mp htrim).1
  rw [ht, List.dropWhile_append_of_pos hb] at hfront
  have hlength := congrArg List.length hfront
  have hle := (List.dropWhile_suffix isBlank (l := u)).length_le
  rw [List.length_append] at hlength
  exact List.length_eq_zero_iff.mp (by omega)

/-- A text is what is trimmed off it at both ends, and what is left in between. -/
theorem exists_blanks (t : Text) : ∃ b b' : Text, t = b ++ trim t ++ b' ∧
    (∀ ch ∈ b, isBlank ch = true) ∧ ∀ ch ∈ b', isBlank ch = true := by
  refine ⟨t.takeWhile isBlank, ((t.dropWhile isBlank).reverse.takeWhile isBlank).reverse, ?_,
    List.all_eq_true.mp List.all_takeWhile,
    fun ch hch => List.all_eq_true.mp List.all_takeWhile ch (List.mem_reverse.mp hch)⟩
  rw [trim, trimBy, List.append_assoc, ← List.reverse_append, List.takeWhile_append_dropWhile,
    List.reverse_reverse, List.takeWhile_append_dropWhile]

theorem trim_infix (t : Text) : trim t <:+: t := by
  obtain ⟨b, b', ht, -, -⟩ := exists_blanks t
  exact ⟨b, b', ht.symm⟩

/-- A text between characters that are no blanks is left as it is. -/
theorem trim_enclosed {c d : Char} (hc : isBlank c = false) (hd : isBlank d = false) (t : Text) :
    trim (c :: (t ++ [d])) = c :: (t ++ [d]) := by
  refine trim_eq_self_iff.mpr ⟨List.dropWhile_cons_of_neg (by simp [hc]), ?_⟩
  rw [List.reverse_cons, List.reverse_append]
  exact List.dropWhile_cons_of_neg (by simp [hd])

section

variable {b c : Text}

/-- A character that is no blank does not occur among blanks. -/
theorem not_mem_blanks (hb : ∀ ch ∈ b, isBlank ch = true) {c : Char} (hc : isBlank c = false) :
    c ∉ b := fun hmem => absurd (hc.symm.trans (hb c hmem)) Bool.false_ne_true

/-- Blanks at the end are trimmed off. -/
theorem trim_append_blanks (hb : ∀ ch ∈ b, isBlank ch = true) (t : Text) :
    trim (t ++ b) = trim t := by
  have hall : b.dropWhile isBlank = [] := List.dropWhile_eq_nil_iff.mpr hb
  rw [trim, trim, trimBy, trimBy, List.dropWhile_append, hall]
  split
  · rename_i hempty
    rw [List.isEmpty_iff.mp hempty]
  · have hblank : ∀ ch ∈ b.reverse, isBlank ch = true := fun ch hch => hb ch (List.mem_reverse.mp hch)
    rw [List.reverse_append, List.dropWhile_append_of_pos hblank]

/-- So are blanks at both ends. -/
theorem trim_between_blanks (hb : ∀ ch ∈ b, isBlank ch = true) (hc : ∀ ch ∈ c, isBlank ch = true)
    (t : Text) : trim (b ++ t ++ c) = trim t := by
  rw [trim_append_blanks hc, trim, trimBy, List.dropWhile_append_of_pos hb]
  rfl

end

/-! ## Joining -/

theorem joinWith_cons_cons (sep t u : Text) (ts : List Text) :
    joinWith sep (t :: u :: ts) = t ++ sep ++ joinWith sep (u :: ts) := rfl

theorem joinWith_append (sep : Text) : ∀ {ts us : List Text}, ts ≠ [] → us ≠ [] →
    joinWith sep (ts ++ us) = joinWith sep ts ++ sep ++ joinWith sep us
  | [], _, h, _ => absurd rfl h
  | _, [], _, h => absurd rfl h
  | [t], u :: us, _, _ => joinWith_cons_cons sep t u us
  | t :: t' :: ts, u :: us, _, hus => by
    have ih := joinWith_append sep (List.cons_ne_nil t' ts) hus
    rw [List.cons_append] at ih
    rw [List.cons_append, List.cons_append, joinWith_cons_cons, ih, joinWith_cons_cons]
    simp only [List.append_assoc]

theorem joinWith_concat (sep t : Text) {ts : List Text} (hts : ts ≠ []) :
    joinWith sep (ts ++ [t]) = joinWith sep ts ++ (sep ++ t) := by
  rw [joinWith_append sep hts (List.cons_ne_nil t []), List.append_assoc]
  rfl

/-- Texts may be joined in any grouping. -/
theorem joinWith_flatten (sep : Text) : ∀ {families : List (List Text)},
    (∀ family ∈ families, family ≠ []) →
      joinWith sep (families.map (joinWith sep)) = joinWith sep families.flatten
  | [], _ => rfl
  | [family], _ => by
    rw [List.flatten_singleton]
    rfl
  | family :: next :: rest, hne => by
    obtain ⟨hfamily, hrest⟩ := List.forall_mem_cons.mp hne
    have hflatten : (next :: rest).flatten ≠ [] := by
      rw [List.flatten_cons]
      exact List.append_ne_nil_of_left_ne_nil (hrest next List.mem_cons_self) _
    have ih := joinWith_flatten sep hrest
    rw [List.map_cons] at ih
    rw [List.map_cons, List.map_cons, joinWith_cons_cons, ih,
      ← joinWith_append sep hfamily hflatten]
    rfl

/-! ## Finding a part -/

/-- A part that is not found starts nowhere in the text. -/
theorem startsWith_eq_false_of_cutAround?_none {part : Text} : ∀ {t : Text},
    cutAround? part t = none → ∀ x y, t = x ++ y → startsWith y part = false
  | [], h, x, y, ht => by
    obtain ⟨rfl, rfl⟩ := List.append_eq_nil_iff.mp ht.symm
    rw [cutAround?] at h
    cases part with
    | nil => exact absurd h (by simp)
    | cons a part => rfl
  | c :: t, h, x, y, ht => by
    rw [cutAround?] at h
    cases hlead : dropLead? part (c :: t) with
    | some rest =>
      rw [hlead] at h
      exact absurd h (by simp)
    | none =>
      rw [hlead] at h
      cases x with
      | nil =>
        rw [List.nil_append] at ht
        rw [startsWith, ← ht, hlead]
        rfl
      | cons a x =>
        obtain ⟨-, ht⟩ := List.cons.inj ht
        exact startsWith_eq_false_of_cutAround?_none (Option.map_eq_none_iff.mp h) x y ht

theorem cutAround?_eq_append {part : Text} : ∀ {t a b : Text},
    cutAround? part t = some (a, b) → t = a ++ part ++ b
  | [], a, b, h => by
    rw [cutAround?] at h
    split at h
    next hpart =>
      obtain ⟨rfl, rfl⟩ := Prod.mk.inj (Option.some.inj h)
      rw [hpart]
      rfl
    next => exact absurd h (by simp)
  | c :: t, a, b, h => by
    rw [cutAround?] at h
    cases hlead : dropLead? part (c :: t) with
    | some rest =>
      rw [hlead] at h
      obtain ⟨rfl, rfl⟩ := Prod.mk.inj (Option.some.inj h)
      exact dropLead?_eq_some_iff.mp hlead
    | none =>
      rw [hlead] at h
      obtain ⟨⟨a', b'⟩, hcut, heq⟩ := Option.map_eq_some_iff.mp h
      obtain ⟨rfl, rfl⟩ : c :: a' = a ∧ b' = b := by simpa using heq
      rw [cutAround?_eq_append hcut]
      simp

theorem includes_iff {t part : Text} : includes t part = true ↔ ∃ a b, t = a ++ part ++ b := by
  rw [includes, Option.isSome_iff_exists]
  constructor
  · rintro ⟨⟨a, b⟩, hcut⟩
    exact ⟨a, b, cutAround?_eq_append hcut⟩
  · rintro ⟨a, b, rfl⟩
    refine Option.isSome_iff_exists.mp (Option.isSome_iff_ne_none.mpr fun hnone => ?_)
    have hstart := startsWith_eq_false_of_cutAround?_none hnone a (part ++ b) (List.append_assoc ..)
    exact Bool.false_ne_true (hstart.symm.trans (startsWith_iff.mpr ⟨b, rfl⟩))

/-- The first cut around a part has the part nowhere before it. -/
theorem startsWith_eq_false_of_cutAround?_some {part : Text} : ∀ {t a b : Text},
    cutAround? part t = some (a, b) → ∀ x y, a = x ++ y → y ≠ [] →
      startsWith (y ++ part ++ b) part = false
  | [], a, b, h, x, y, ha, hy => by
    rw [cutAround?] at h
    split at h
    · obtain ⟨rfl, rfl⟩ := Prod.mk.inj (Option.some.inj h)
      exact absurd (List.append_eq_nil_iff.mp ha.symm).2 hy
    · exact absurd h (by simp)
  | c :: t, a, b, h, x, y, ha, hy => by
    rw [cutAround?] at h
    cases hlead : dropLead? part (c :: t) with
    | some rest =>
      rw [hlead] at h
      obtain ⟨rfl, rfl⟩ := Prod.mk.inj (Option.some.inj h)
      exact absurd (List.append_eq_nil_iff.mp ha.symm).2 hy
    | none =>
      rw [hlead] at h
      obtain ⟨⟨a', b'⟩, hcut, heq⟩ := Option.map_eq_some_iff.mp h
      obtain ⟨rfl, rfl⟩ : c :: a' = a ∧ b' = b := by simpa using heq
      cases x with
      | nil =>
        -- the cut of the rest starts behind the character
        have ht : c :: t = y ++ part ++ b' := by
          rw [List.nil_append] at ha
          rw [← ha, cutAround?_eq_append hcut]
          simp
        rw [startsWith, ← ht, hlead]
        rfl
      | cons u x =>
        obtain ⟨-, ha⟩ := List.cons.inj ha
        exact startsWith_eq_false_of_cutAround?_some hcut x y ha hy

end Text
end UtilityCss
