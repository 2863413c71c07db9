import UtilityCss.Proofs.ClassList.Within

/-!
# Names inside of longer sources

A name, and what belongs to it, is found in a longer source as it was.  If it goes on to the end
of the source, what is added behind has to be set off.  If it stops short of the end it does not
matter what is added.  What stops a name is there already, a character that no separator holds or
a separator, and a separator that begins in front of it and goes on into what is added would
reach over it.  Only behind a single slash at the end it is still open whether a modifier follows.

A name in a group can reach over the end of the group.  Where it stops is then not certain, but in
the longer source it reaches over the end of the group as well.
-/

namespace UtilityCss
namespace ClassList

variable {sep : Separator} {front back : Text} {c d : Cursor}

theorem takeWhile_within {p : Char → Bool} (hp : ∀ ch, Text.isBlank ch = true → p ch = false)
    (hback : Apart back) (t : Text) : (t ++ back).takeWhile p = t.takeWhile p := by
  induction t with
  | nil =>
    cases back with
    | nil => rfl
    | cons ch r =>
      rw [List.nil_append, List.takeWhile_cons_of_neg (by rw [hp ch (hback ch r rfl)]; decide)]
      rfl
  | cons x t ih => rw [List.cons_append, List.takeWhile_cons, List.takeWhile_cons, ih]

/-- A run that stops short of the end stops in front of some character. -/
theorem exists_stop {p : Char → Bool} : ∀ {t : Text}, runLength p sep t < t.length →
    ∃ u y r, t = u ++ y :: r ∧ (p y = false ∨ sep.startsIn (y :: r) = true)
  | [], h => absurd h (Nat.not_lt_zero _)
  | x :: t, h => by
    by_cases hx : (p x && !sep.startsIn (x :: t)) = true
    · rw [runLength, if_pos hx, List.length_cons] at h
      obtain ⟨u, y, r, rfl, hy⟩ := exists_stop (Nat.lt_of_succ_lt_succ h)
      exact ⟨x :: u, y, r, rfl, hy⟩
    · refine ⟨[], x, t, rfl, ?_⟩
      cases hp : p x with
      | false => exact Or.inl rfl
      | true => exact Or.inr (by simpa [hp] using hx)

/-- No separator starts in front of the place where a run stops, however the text goes on behind
it: it would have to reach over that place. -/
theorem startsIn_append_of_stop {p : Char → Bool} (hp : ∀ ch, p ch = false → separates ch = false)
    {u r : Text} {y : Char} (h : p y = false ∨ sep.startsIn (y :: r) = true) (back : Text)
    (hu : sep.startsIn (u ++ y :: r) = false) : sep.startsIn (u ++ y :: r ++ back) = false := by
  rcases h with hy | hsep
  · rw [sep.startsIn_append_cons (hp y hy)] at hu
    rw [List.append_assoc, List.cons_append, sep.startsIn_append_cons (hp y hy), hu]
  · by_contra hstarts
    rw [Bool.not_eq_false] at hstarts
    obtain ⟨v, hv⟩ := sep.startsIn_iff.mp hstarts
    obtain ⟨w, hw⟩ := sep.startsIn_iff.mp hsep
    have hle : sep.text.length ≤ (u ++ y :: r).length := by
      rw [hw, List.length_append, List.length_append]
      omega
    have hprefix : sep.text <+: u ++ y :: r ++ back := ⟨v, hv.symm⟩
    obtain ⟨z, hz⟩ := List.prefix_of_prefix_length_le hprefix (List.prefix_append _ back) hle
    rw [sep.startsIn_iff.mpr ⟨z, hz.symm⟩] at hu
    exact absurd hu (by decide)

theorem runLength_of_lt {p : Char → Bool} (hp : ∀ ch, p ch = false → separates ch = false)
    (back : Text) : ∀ {t : Text}, runLength p sep t < t.length →
      runLength p sep (t ++ back) = runLength p sep t
  | [], h => absurd h (Nat.not_lt_zero _)
  | x :: t, h => by
    rw [runLength] at h
    rw [List.cons_append, runLength, runLength]
    cases hx : p x with
    | false => rfl
    | true =>
      cases hs : sep.startsIn (x :: t) with
      | true =>
        obtain ⟨v, hv⟩ := sep.startsIn_iff.mp hs
        have hs' : sep.startsIn (x :: (t ++ back)) = true :=
          sep.startsIn_iff.mpr ⟨v ++ back, by rw [← List.append_assoc, ← hv, List.cons_append]⟩
        rw [hs']
        rfl
      | false =>
        rw [hx, hs, Bool.not_false, Bool.and_true, if_pos rfl, List.length_cons] at h
        have hlt := Nat.lt_of_succ_lt_succ h
        obtain ⟨u, y, r, ht, hy⟩ := exists_stop hlt
        have hs' : sep.startsIn (x :: (t ++ back)) = false := by
          rw [ht] at hs ⊢
          exact startsIn_append_of_stop (u := x :: u) hp hy back hs
        rw [hs', runLength_of_lt hp back hlt]

/-- A run ends as before if what is added is set off, or if it stops short of that. -/
theorem runLength_within {p : Char → Bool} (hp : ∀ ch, parts ch = true → p ch = false)
    (hp' : ∀ ch, p ch = false → separates ch = false) {t : Text}
    (h : SetOff back ∨ runLength p sep t < t.length) :
    runLength p sep (t ++ back) = runLength p sep t := by
  rcases h with hback | hlt
  · clear hp'
    induction t with
    | nil =>
      cases back with
      | nil => rfl
      | cons ch r => simp [runLength, hp ch (hback ch r rfl)]
    | cons x t ih =>
      have hstarts := sep.startsIn_within hback (x :: t)
      rw [List.cons_append] at hstarts ⊢
      rw [runLength, runLength, hstarts, ih]
  · exact runLength_of_lt hp' back hlt

theorem isNameChar_of_parts {ch : Char} (h : parts ch = true) : isNameChar ch = false := by
  rcases Bool.or_eq_true_iff.mp h with h | h
  · simp [isNameChar, h]
  · rw [of_decide_eq_true h]
    decide

/-- No separator holds a character that ends a name. -/
theorem separates_of_isNameChar {ch : Char} (h : isNameChar ch = false) : separates ch = false := by
  cases hs : separates ch with
  | false => rfl
  | true =>
    simp [separates, structural] at hs
    simp [isNameChar, Brackets.isOpening, Brackets.isClosing, hs] at h

theorem separates_of_isModifierChar {ch : Char} (h : isModifierChar ch = false) :
    separates ch = false := by
  rcases Bool.and_eq_false_iff.mp h with h | h
  · exact separates_of_isNameChar h
  · obtain rfl : ch = '/' := by simpa using h
    decide

theorem nameLength_within {t : Text} (h : SetOff back ∨ nameLength sep t < t.length) :
    nameLength sep (t ++ back) = nameLength sep t := by
  rw [nameLength_eq] at h
  rw [nameLength_eq, nameLength_eq]
  exact runLength_within (fun ch hch => isNameChar_of_parts hch)
    (fun ch hch => separates_of_isNameChar hch) h

theorem modifierLength_within {t : Text} (h : SetOff back ∨ modifierLength sep t < t.length) :
    modifierLength sep (t ++ back) = modifierLength sep t := by
  rw [modifierLength_eq] at h
  rw [modifierLength_eq, modifierLength_eq]
  exact runLength_within (fun ch hch => by rw [isModifierChar, isNameChar_of_parts hch]; rfl)
    (fun ch hch => separates_of_isModifierChar hch) h

/-- What was read stops in front of the text `t`, and stops there with more text behind it: what
is added is set off, or the text goes on with more than a slash, behind which a modifier could be
added. -/
def Holds (back t : Text) : Prop := SetOff back ∨ t ≠ [] ∧ t ≠ ['/']

theorem Holds.ne_nil {t : Text} (h : Holds back t) : SetOff back ∨ t ≠ [] := h.imp_right And.left

/-- In front of a separator. -/
theorem holds_of_startsIn {t : Text} (h : sep.startsIn t = true) : Holds back t := by
  refine Or.inr ⟨?_, ?_⟩
  · rintro rfl
    exact absurd h (by simp)
  · rintro rfl
    exact absurd h (by simp [sep.startsIn_cons (show separates '/' = false by decide)])

/-- In front of a closing bracket. -/
theorem holds_of_encloses {stop : Nat} {body : Text} (h : c.Encloses stop body) :
    Holds back c.rest := by
  obtain ⟨close, after, hc, hclose, -⟩ := h
  refine Or.inr ⟨by simp [hc], fun hslash => ?_⟩
  have hmem : close ∈ ['/'] := by
    rw [← hslash, hc]
    simp
  rw [List.mem_singleton.mp hmem] at hclose
  exact absurd hclose (by decide)

namespace Head

theorem ownModifier?_shift (n : Nat) (name : Slice) :
    ownModifier? (name.shift n) = (ownModifier? name).map (Modifier.shift n) := by
  unfold ownModifier?
  rw [Slice.text_shift]
  split
  · rfl
  · simp only [Option.map_some, Modifier.shift, Slice.shift, Slice.drop]
    rw [Nat.add_right_comm]
  · rfl

/-! ### Modifiers behind a bracket -/

theorem trailing?_boxed (sep : Separator) {r : Text} (hc : c.rest = '/' :: '[' :: r) :
    trailing? sep c =
      some (⟨Brackets.inner (c.advance 1) (Brackets.closing (c.advance 1)), true,
        (Brackets.closing (c.advance 1)).closed⟩,
        (c.advance 1).advance (Brackets.closing (c.advance 1)).length) := by
  unfold trailing?
  rw [hc]
  rfl

theorem trailing?_plain {t : Text} (hc : c.rest = '/' :: t) (ht : ∀ r, t ≠ '[' :: r) :
    trailing? sep c =
      if modifierLength sep t = 0 then none
      else some (⟨(c.advance 1).ahead (modifierLength sep t), false, true⟩,
        c.advance (modifierLength sep t + 1)) := by
  unfold trailing?
  split
  next r hr =>
    rw [hc] at hr
    exact absurd (List.cons.inj hr).2 (ht r)
  next t' _ hr =>
    rw [hc] at hr
    obtain rfl := (List.cons.inj hr).2
    cases hlen : modifierLength sep t <;> simp
  next h => exact absurd hc (h t)

theorem trailing?_none (hc : ∀ r, c.rest ≠ '/' :: r) : trailing? sep c = none := by
  unfold trailing?
  split
  next r hr => exact absurd hr (hc _)
  next t _ hr => exact absurd hr (hc _)
  next => rfl

/-- How a modifier behind a bracket is found in the longer source. -/
theorem trailing?_within (hfront : SetOff front) {m : Modifier} (h : trailing? sep c = some (m, d))
    (hback : SetOff back ∨ d.rest ≠ []) (hclosed : m.closed = true ∨ back = []) :
    trailing? sep (c.within front back) =
      some (m.shift (Text.bytes front), d.within front back) := by
  by_cases hslash : ∃ t, c.rest = '/' :: t
  · obtain ⟨t, hc⟩ := hslash
    have hc' : (c.within front back).rest = '/' :: (t ++ back) := by
      rw [Cursor.rest_within, hc, List.cons_append]
    have hone : 1 ≤ c.rest.length := by rw [hc, List.length_cons]; omega
    have hadvance : (c.within front back).advance 1 = (c.advance 1).within front back :=
      Cursor.advance_within hone
    have hrest : (c.advance 1).rest = t := by rw [Cursor.rest_advance, hc]; rfl
    by_cases hbracket : ∃ r, t = '[' :: r
    · obtain ⟨r, rfl⟩ := hbracket
      rw [trailing?_boxed sep hc] at h
      obtain ⟨rfl, rfl⟩ := Prod.mk.inj (Option.some.inj h)
      have hk : Brackets.closing ((c.advance 1).within front back) =
          Brackets.closing (c.advance 1) := Brackets.closing_within hfront hclosed
      have hlen := Brackets.length_closing_le (c.advance 1)
      rw [trailing?_boxed sep hc', hadvance, hk, Cursor.advance_within hlen,
        Brackets.inner_within (by rw [hrest]; simp) hlen]
      rfl
    · rw [trailing?_plain hc fun r hr => hbracket ⟨r, hr⟩] at h
      have hle : modifierLength sep t ≤ t.length := by
        obtain ⟨u, v, hsplit, hu, -⟩ := exists_run isModifierChar sep t
        rw [modifierLength_eq, ← hu, hsplit, List.length_append]
        omega
      split at h
      next => exact absurd h (by simp)
      next hpos =>
        obtain ⟨rfl, rfl⟩ := Prod.mk.inj (Option.some.inj h)
        have hrun : SetOff back ∨ modifierLength sep t < t.length := by
          refine hback.imp_right fun hne => ?_
          have := List.length_pos_of_ne_nil hne
          rw [Cursor.rest_advance, List.length_drop, hc, List.length_cons] at this
          omega
        have ht' : ∀ r, t ++ back ≠ '[' :: r := by
          intro r hr
          cases t with
          | nil => exact hpos rfl
          | cons x t => exact hbracket ⟨t, by rw [(List.cons.inj hr).1]⟩
        have hle' : modifierLength sep t + 1 ≤ c.rest.length := by
          rw [hc, List.length_cons]
          omega
        rw [trailing?_plain hc' ht', modifierLength_within hrun, if_neg hpos, hadvance,
          Cursor.ahead_within (by rw [hrest]; exact hle), Cursor.advance_within hle']
        rfl
  · rw [trailing?_none fun r hr => hslash ⟨r, hr⟩] at h
    exact absurd h (by simp)

/-- Where there is no modifier there is none in the longer source. -/
theorem trailing?_within_none (h : trailing? sep c = none) (hback : Holds back c.rest) :
    trailing? sep (c.within front back) = none := by
  by_cases hslash : ∃ t, c.rest = '/' :: t
  · obtain ⟨t, hc⟩ := hslash
    have hc' : (c.within front back).rest = '/' :: (t ++ back) := by
      rw [Cursor.rest_within, hc, List.cons_append]
    have ht : ∀ r, t ≠ '[' :: r := by
      rintro r rfl
      rw [trailing?_boxed sep hc] at h
      exact absurd h (by simp)
    have hback : SetOff back ∨ t ≠ [] := by
      refine hback.imp_right fun hne => ?_
      rintro rfl
      exact hne.2 hc
    have ht' : ∀ r, t ++ back ≠ '[' :: r := by
      intro r hr
      cases t with
      | nil =>
        have hsetOff := hback.resolve_right fun hne => hne rfl
        exact absurd (hsetOff '[' r hr) (by decide)
      | cons x t => exact ht t (by rw [(List.cons.inj hr).1])
    have hzero : modifierLength sep t = 0 := by
      by_contra hne
      rw [trailing?_plain hc ht, if_neg hne] at h
      exact absurd h (by simp)
    have hrun : SetOff back ∨ modifierLength sep t < t.length :=
      hback.imp_right fun hne => by rw [hzero]; exact List.length_pos_of_ne_nil hne
    rw [trailing?_plain hc' ht', modifierLength_within hrun, if_pos hzero]
  · refine trailing?_none fun r hr => ?_
    rw [Cursor.rest_within] at hr
    cases hrest : c.rest with
    | nil =>
      have hsetOff := hback.ne_nil.resolve_right fun hne => hne hrest
      rw [hrest] at hr
      exact absurd (hsetOff '/' r hr) (by decide)
    | cons x t =>
      rw [hrest] at hr
      exact hslash ⟨t, by rw [hrest, (List.cons.inj hr).1]⟩

/-- A modifier never gives back what was read. -/
theorem length_trailing?_le {m : Modifier} (h : trailing? sep c = some (m, d)) :
    d.rest.length ≤ c.rest.length := by
  obtain ⟨t, hp, -⟩ := trailing?_laid h
  rw [hp.length]
  omega

/-- A run without closing brackets stays in front of the closing bracket. -/
theorem encloses_of_run {stop : Nat} {body u r : Text} (h : c.Encloses stop body)
    (hc : c.rest = u ++ r) (hu : ∀ x ∈ u, isNameChar x = true) :
    ∃ body', (c.advance u.length).Encloses stop body' := by
  have hp : c.Passes u (c.advance u.length) := Cursor.passes_advance_of_append hc
  suffices hle : stop ≤ (c.advance u.length).rest.length by
    obtain ⟨v, -, hv⟩ := h.advance hp hle
    exact ⟨v, hv⟩
  obtain ⟨close, after, hbody, hclose, rfl⟩ := h
  rcases Text.append_eq_append_cons (hc.symm.trans hbody) with ⟨v, hv, -⟩ | ⟨v, -, hv⟩
  · have hname := hu close (by rw [hv]; simp)
    rw [(isNameChar_iff.mp hname).2.2.1] at hclose
    exact absurd hclose (by decide)
  · rw [Cursor.rest_advance_of_append hc, hv, List.length_append, List.length_cons]
    omega

/-- A modifier that reaches over the closing bracket reaches over it in the longer source. -/
theorem length_trailing?_within (hfront : SetOff front) {stop : Nat} {body : Text}
    (hbody : c.Encloses stop body) {m : Modifier}
    (h : trailing? sep c = some (m, d)) (hd : d.rest.length < stop) :
    ∃ m' d', trailing? sep (c.within front back) = some (m', d') ∧
      d'.rest.length < stop + back.length := by
  by_cases hslash : ∃ t, c.rest = '/' :: t
  · obtain ⟨t, hc⟩ := hslash
    by_cases hbracket : ∃ r, t = '[' :: r
    · obtain ⟨r, rfl⟩ := hbracket
      have hc' : (c.within front back).rest = '/' :: '[' :: (r ++ back) := by
        rw [Cursor.rest_within, hc, List.cons_append, List.cons_append]
      rw [trailing?_boxed sep hc] at h
      obtain ⟨-, rfl⟩ := Prod.mk.inj (Option.some.inj h)
      refine ⟨_, _, trailing?_boxed sep hc', ?_⟩
      rw [Cursor.advance_within (by rw [hc, List.length_cons]; omega)]
      exact Brackets.length_advance_within hfront hbody.stop_pos fun _ => hd
    · rw [trailing?_plain hc fun r hr => hbracket ⟨r, hr⟩] at h
      split at h
      next => exact absurd h (by simp)
      next =>
        -- a plain modifier holds no closing bracket
        obtain ⟨-, rfl⟩ := Prod.mk.inj (Option.some.inj h)
        obtain ⟨u, v, hsplit, hu, hname⟩ := exists_run isModifierChar sep t
        have hc' : c.rest = ('/' :: u) ++ v := by rw [hc, hsplit, List.cons_append]
        obtain ⟨body', hbody'⟩ := encloses_of_run hbody hc' fun x hx => by
          rcases List.mem_cons.mp hx with rfl | hx
          · decide
          · exact (Bool.and_eq_true_iff.mp (hname x hx)).1
        rw [modifierLength_eq, ← hu] at hd
        have := hbody'.length
        rw [List.length_cons] at this
        omega
  · rw [trailing?_none fun r hr => hslash ⟨r, hr⟩] at h
    exact absurd h (by simp)

/-! ### Heads -/

theorem Named.within {u r : Text} (h : Named sep c u r) (front : Text)
    (hback : SetOff back ∨ r ≠ []) : Named sep (c.within front back) u (r ++ back) where
  rest_eq := by rw [Cursor.rest_within, h.rest_eq, List.append_assoc]
  ne_nil := h.ne_nil
  length := by
    have hrun : SetOff back ∨ nameLength sep c.rest < c.rest.length := by
      refine hback.imp_right fun hne => ?_
      have := List.length_pos_of_ne_nil hne
      rw [h.length, h.rest_eq, List.length_append]
      omega
    rw [Cursor.rest_within, nameLength_within hrun, h.length]
  chars := h.chars

theorem Named.advance_within {u r : Text} (h : Named sep c u r) (front back : Text) :
    (c.within front back).advance u.length = (c.advance u.length).within front back :=
  Cursor.advance_within (by rw [h.rest_eq, List.length_append]; omega)

/-- What is added is no bracket behind the name. -/
theorem Named.isAt_within {u r : Text} (h : Named sep c u r) (hback : SetOff back ∨ r ≠ []) :
    ((c.advance u.length).within front back).isAt '[' = (c.advance u.length).isAt '[' :=
  Cursor.isAt_within (hback.imp_right fun hne => h.rest_advance ▸ hne) (by decide)

/-- A head goes on at least to the end of its name. -/
theorem ReadsHead.length_le {head : Head} {u r : Text} (h : ReadsHead sep c head d)
    (hname : Named sep c u r) : d.rest.length ≤ r.length := by
  have hbracket : ∀ n, ((c.advance u.length).advance n).rest.length ≤ r.length := by
    intro n
    rw [Cursor.rest_advance, List.length_drop, hname.rest_advance]
    omega
  cases h with
  | plain hu hb _ =>
    obtain ⟨rfl, -⟩ := hname.unique hu
    rw [← hb, hname.rest_advance]
  | modified hu hb _ _ hd | valued hu hb _ _ hd _ =>
    obtain ⟨rfl, -⟩ := hname.unique hu
    subst hb hd
    exact hbracket _
  | modifiedValue hu hb _ _ hd _ hm =>
    obtain ⟨rfl, -⟩ := hname.unique hu
    subst hb hd
    exact Nat.le_trans (length_trailing?_le hm) (hbracket _)

/-- A head that is closed, or has nothing added behind it, is found in the longer source. -/
theorem ReadsHead.within (hfront : SetOff front) {head : Head} (h : ReadsHead sep c head d)
    (hback : Holds back d.rest) (hclosed : head.closed = true ∨ back = []) :
    ReadsHead sep (c.within front back) (head.shift (Text.bytes front)) (d.within front back) := by
  -- what is added does not go on with the name
  have hname : ∀ {u r : Text} {b : Cursor}, Named sep c u r → c.advance u.length = b →
      Named sep (c.within front back) u (r ++ back) ∧
        (c.within front back).advance u.length = b.within front back ∧
        (b.within front back).isAt '[' = b.isAt '[' := by
    rintro u r b hu rfl
    have hr : SetOff back ∨ r ≠ [] := hback.ne_nil.imp_right fun hne hnil => by
      have := h.length_le hu
      rw [hnil] at this
      exact hne (List.eq_nil_of_length_eq_zero (Nat.le_zero.mp this))
    exact ⟨hu.within front hr, hu.advance_within front back, hu.isAt_within hr⟩
  have hle (b : Cursor) := Brackets.length_closing_le b
  cases h with
  | plain hu hb hat =>
    obtain ⟨hu', hb', hat'⟩ := hname hu hb
    have hreads := ReadsHead.plain hu' hb' (hat'.trans hat)
    rw [Cursor.offset_within] at hreads
    rw [shift, ← ownModifier?_shift]
    exact hreads
  | @modified u r b d hu hb hat hslash hd =>
    obtain ⟨hu', hb', hat'⟩ := hname hu hb
    have hk : Brackets.closing (b.within front back) = Brackets.closing b :=
      Brackets.closing_within hfront (by simpa [closed, modifier] using hclosed)
    have hreads := ReadsHead.modified hu' hb' (hat'.trans hat) hslash rfl
    rw [hk, Cursor.advance_within (hle b), hd,
      Brackets.inner_within (Cursor.rest_ne_nil_of_isAt hat) (hle b), Cursor.upTo_within] at hreads
    exact hreads
  | @valued u r b d hu hb hat hslash hd hnone =>
    obtain ⟨hu', hb', hat'⟩ := hname hu hb
    have hk : Brackets.closing (b.within front back) = Brackets.closing b :=
      Brackets.closing_within hfront (by simpa [closed, modifier] using hclosed)
    have hreads := ReadsHead.valued (d := d.within front back) hu' hb' (hat'.trans hat) hslash
      (by rw [hk, Cursor.advance_within (hle b), hd])
      (fun hkc => trailing?_within_none (hnone (hk ▸ hkc)) hback)
    rw [hk, Brackets.inner_within (Cursor.rest_ne_nil_of_isAt hat) (hle b),
      Cursor.offset_within] at hreads
    exact hreads
  | @modifiedValue u r b d e m hu hb hat hslash hd hkc hm =>
    obtain ⟨hu', hb', hat'⟩ := hname hu hb
    have hk : Brackets.closing (b.within front back) = Brackets.closing b :=
      Brackets.closing_within hfront (Or.inl hkc)
    have hm' : trailing? sep (d.within front back) = _ :=
      trailing?_within hfront hm hback.ne_nil (by simpa [closed, modifier] using hclosed)
    have hreads := ReadsHead.modifiedValue hu' hb' (hat'.trans hat) hslash
      (by rw [hk, Cursor.advance_within (hle b), hd]) (hk ▸ hkc) hm'
    rw [hk, Brackets.inner_within (Cursor.rest_ne_nil_of_isAt hat) (hle b),
      Cursor.offset_within] at hreads
    exact hreads

theorem read?_within (hfront : SetOff front) {head : Head} (h : read? sep c = some (head, d))
    (hback : Holds back d.rest) (hclosed : head.closed = true ∨ back = []) :
    read? sep (c.within front back) =
      some (head.shift (Text.bytes front), d.within front back) :=
  ((read?_eq_some_iff.mp h).within hfront hback hclosed).read?_eq

/-- Where there is no name there is none in the longer source. -/
theorem read?_within_none (hback : SetOff back ∨ c.rest ≠ []) (h : read? sep c = none) :
    read? sep (c.within front back) = none := by
  have hzero := read?_eq_none_iff.mp h
  rw [read?_eq_none_iff, Cursor.rest_within, nameLength_within, hzero]
  exact hback.imp_right fun hne => by rw [hzero]; exact List.length_pos_of_ne_nil hne

/-- Where a head with a value reaches over the closing bracket, in the longer source the value does,
or it is closed and the modifier does. -/
theorem length_value_within (hfront : SetOff front) {stop : Nat} {body u r : Text} {b : Cursor}
    (hbody : b.Encloses stop body) (hover : ∀ head e, ReadsHead sep c head e → e.rest.length < stop)
    (hu : Named sep c u r) (hb : c.advance u.length = b) (hat : b.isAt '[' = true)
    (hslash : Text.endsWith u ['/'] = false)
    (hd : (b.within front back).advance (Brackets.closing (b.within front back)).length = d) :
    d.rest.length < stop + back.length ∨
      (Brackets.closing (b.within front back)).closed = true ∧
        ∃ m e, trailing? sep d = some (m, e) ∧ e.rest.length < stop + back.length := by
  by_cases hvalue : (Brackets.closing b).closed = true →
      (b.advance (Brackets.closing b).length).rest.length < stop
  · exact Or.inl (hd ▸ Brackets.length_advance_within hfront hbody.stop_pos hvalue)
  -- so it is the modifier that reaches over the closing bracket
  obtain ⟨hclosed, hle⟩ := Classical.not_imp.mp hvalue
  have hk : Brackets.closing (b.within front back) = Brackets.closing b :=
    Brackets.closing_within hfront (Or.inl hclosed)
  rw [hk, Cursor.advance_within (Brackets.length_closing_le b)] at hd
  refine Or.inr ⟨hk ▸ hclosed, ?_⟩
  cases hm : trailing? sep (b.advance (Brackets.closing b).length) with
  | none => exact absurd (hover _ _ (.valued hu hb hat hslash rfl fun _ => hm)) hle
  | some p =>
    obtain ⟨m, e⟩ := p
    have hp := Cursor.passes_advance b (Brackets.closing b).length
    obtain ⟨v, -, hv⟩ := hbody.advance hp (Nat.not_lt.mp hle)
    exact hd ▸ length_trailing?_within hfront hv hm
      (hover _ _ (.modifiedValue hu hb hat hslash rfl hclosed hm))

/-- A head that reaches over the closing bracket reaches over it in the longer source. -/
theorem length_read?_within (hfront : SetOff front) {stop : Nat} {body : Text}
    (hbody : c.Encloses stop body) (h : ∀ head d, read? sep c = some (head, d) → d.rest.length < stop)
    {head' : Head} {d' : Cursor} (h' : read? sep (c.within front back) = some (head', d')) :
    d'.rest.length < stop + back.length := by
  have hover : ∀ head d, ReadsHead sep c head d → d.rest.length < stop :=
    fun head d hreads => h head d hreads.read?_eq
  have hne : c.rest ≠ [] := by
    obtain ⟨close, after, hc, -⟩ := hbody
    simp [hc]
  obtain ⟨u, r, hname⟩ : ∃ u r, Named sep c u r := exists_named fun hzero => by
    rw [read?_within_none (Or.inr hne) (read?_eq_none hzero)] at h'
    exact absurd h' (by simp)
  -- the name itself stays in front of the closing bracket
  obtain ⟨body', hbehind⟩ := encloses_of_run hbody hname.rest_eq hname.chars
  have hr : r ≠ [] := by
    obtain ⟨close, after, hc, -⟩ := hbehind
    rw [← hname.rest_advance, hc]
    simp
  have hname' : Named sep (c.within front back) u (r ++ back) := hname.within front (Or.inr hr)
  have hadvance := hname.advance_within front back
  have hat' : ((c.advance u.length).within front back).isAt '[' =
      (c.advance u.length).isAt '[' := hname.isAt_within (Or.inr hr)
  cases read?_eq_some_iff.mp h' with
  | plain hu hb hat =>
    obtain ⟨rfl, -⟩ := hname'.unique hu
    subst hb
    rw [hadvance] at hat ⊢
    have hlt := hover _ _ (.plain hname rfl (hat'.symm.trans hat))
    rw [Cursor.rest_within, List.length_append]
    omega
  | modified hu hb hat hslash hd =>
    obtain ⟨rfl, -⟩ := hname'.unique hu
    subst hb hd
    rw [hadvance] at hat ⊢
    have hlt := hover _ _ (.modified hname rfl (hat'.symm.trans hat) hslash rfl)
    exact Brackets.length_advance_within hfront hbehind.stop_pos fun _ => hlt
  | valued hu hb hat hslash hd hnone =>
    obtain ⟨rfl, -⟩ := hname'.unique hu
    obtain rfl := hadvance.symm.trans hb
    rcases length_value_within hfront hbehind hover hname rfl (hat'.symm.trans hat) hslash hd with
      hlt | ⟨hclosed, m, e, hm, -⟩
    · exact hlt
    · exact absurd (hm.symm.trans (hnone hclosed)) (by simp)
  | modifiedValue hu hb hat hslash hd _ hm =>
    obtain ⟨rfl, -⟩ := hname'.unique hu
    obtain rfl := hadvance.symm.trans hb
    rcases length_value_within hfront hbehind hover hname rfl (hat'.symm.trans hat) hslash hd with
      hlt | ⟨-, m, e, hm', hlt⟩
    · exact Nat.lt_of_le_of_lt (length_trailing?_le hm) hlt
    · obtain ⟨rfl, rfl⟩ := Prod.mk.inj (Option.some.inj (hm.symm.trans hm'))
      exact hlt

end Head

end ClassList
end UtilityCss
