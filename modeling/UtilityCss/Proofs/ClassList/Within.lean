import UtilityCss.Proofs.ClassList.Derivation
import UtilityCss.Proofs.ClassList.Shift

/-!
# Class lists inside of longer sources

What is read at a place does not change when the source is made longer on either side, if
what is added is set off by a blank or by a mark of importance.  On the left that is because
the only thing the reader looks back for is a name, on the right because no name and no
separator reaches over either.  The exception is a bracket that does not close: it takes
everything that is added on the right.

`Cursor.within` is the same place in the longer source.  Every rule of the grammar holds
there as it held before, the slices further on by what was added on the left.
-/

namespace UtilityCss

/-- Blanks and marks of importance: no name, no separator and no address goes on over them. -/
def parts (ch : Char) : Bool := Text.isBlank ch || ch = '!'

theorem parts_of_isBlank {ch : Char} (h : Text.isBlank ch = true) : parts ch = true := by
  rw [parts, h, Bool.true_or]

/-- The text is set off from what is in front of it, or behind it in the case of a text that is
read backwards: it is empty or begins with a blank or a mark of importance. -/
def SetOff (t : Text) : Prop := ∀ ch r, t = ch :: r → parts ch = true

/-- The text is set off by a blank, or it is empty. -/
def Apart (t : Text) : Prop := ∀ ch r, t = ch :: r → Text.isBlank ch = true

theorem Apart.setOff {t : Text} (h : Apart t) : SetOff t := fun ch r ht =>
  parts_of_isBlank (h ch r ht)

theorem apart_nil : Apart [] := fun _ _ h => absurd h (by simp)

theorem apart_blank {ch : Char} (h : Text.isBlank ch = true) (t : Text) : Apart (ch :: t) := by
  rintro x r hx
  rw [← (List.cons.inj hx).1]
  exact h

theorem apart_of_blanks {t : Text} (h : ∀ ch ∈ t, Text.isBlank ch = true) : Apart t :=
  fun ch _ ht => h ch (ht ▸ List.mem_cons_self)

/-! ## Places -/

namespace Cursor

/-- The place in a source that has `front` more on its left, the last character first, and
`back` more on its right. -/
def within (front back : Text) (c : Cursor) : Cursor := ⟨c.before ++ front, c.rest ++ back⟩

variable {front back : Text} {c d : Cursor}

@[simp] theorem rest_within : (c.within front back).rest = c.rest ++ back := rfl

theorem offset_within : (c.within front back).offset = c.offset + Text.bytes front :=
  Text.bytes_append ..

theorem advance_within {n : Nat} (hn : n ≤ c.rest.length) :
    (c.within front back).advance n = (c.advance n).within front back := by
  simp only [within, advance, List.take_append_of_le_length hn, List.drop_append_of_le_length hn,
    List.append_assoc]

theorem ahead_within {n : Nat} (hn : n ≤ c.rest.length) :
    (c.within front back).ahead n = (c.ahead n).shift (Text.bytes front) := by
  simp only [ahead, offset_within, rest_within, List.take_append_of_le_length hn]
  rfl

theorem upTo_within :
    (c.within front back).upTo (d.within front back) = (c.upTo d).shift (Text.bytes front) := by
  unfold upTo
  rw [rest_within, rest_within, List.length_append, List.length_append, Nat.add_sub_add_right,
    ahead_within (Nat.sub_le _ _)]

theorem rest_ne_nil_of_isAt {ch : Char} (h : c.isAt ch = true) : c.rest ≠ [] := by
  obtain ⟨r, hr⟩ := isAt_iff.mp h
  rw [hr]
  exact List.cons_ne_nil _ _

/-- Nothing that goes on with what was there can have been added. -/
theorem isAt_within (h : SetOff back ∨ c.rest ≠ []) {ch : Char} (hch : parts ch = false) :
    (c.within front back).isAt ch = c.isAt ch := by
  obtain ⟨before, rest⟩ := c
  cases rest with
  | cons x r => rfl
  | nil =>
    have hback := h.resolve_right fun hne => hne rfl
    cases back with
    | nil => rfl
    | cons y r =>
      have hy : y ≠ ch := by
        rintro rfl
        rw [hback y r rfl] at hch
        exact absurd hch (by decide)
      simpa [isAt, within] using hy

/-- What is at the end of the source is seen in the longer source if a blank follows there. -/
theorem isAt_bang_within (h : Apart back ∨ c.rest ≠ []) :
    (c.within front back).isAt '!' = c.isAt '!' := by
  obtain ⟨before, rest⟩ := c
  cases rest with
  | cons x r => rfl
  | nil =>
    have hback := h.resolve_right fun hne => hne rfl
    cases back with
    | nil => rfl
    | cons y r =>
      have hy : y ≠ '!' := by
        rintro rfl
        exact absurd (hback '!' r rfl) (by decide)
      simpa [isAt, within] using hy

theorem isAtGap_within (h : Apart back ∨ c.rest ≠ []) :
    (c.within front back).isAtGap = c.isAtGap := by
  obtain ⟨before, rest⟩ := c
  cases rest with
  | cons x r => rfl
  | nil =>
    have hback := h.resolve_right fun hne => hne rfl
    cases back with
    | nil => rfl
    | cons y r => exact hback y r rfl

/-- Blanks are skipped as before if they do not reach to the end. -/
theorem skipBlanks_within (h : c.skipBlanks.rest ≠ [] ∨ back = []) :
    (c.within front back).skipBlanks = c.skipBlanks.within front back := by
  have htake : (c.rest ++ back).takeWhile Text.isBlank = c.rest.takeWhile Text.isBlank := by
    rcases h with hne | rfl
    · obtain ⟨b, hp, hb, hstop⟩ := passes_skipBlanks c
      obtain ⟨x, r, hx⟩ := List.exists_cons_of_ne_nil hne
      have hblank := hstop x r hx
      rw [hp.rest_eq, hx, List.append_assoc, List.cons_append, List.takeWhile_append_of_pos hb,
        List.takeWhile_append_of_pos hb, List.takeWhile_cons_of_neg (by rw [hblank]; decide),
        List.takeWhile_cons_of_neg (by rw [hblank]; decide)]
    · rw [List.append_nil]
  unfold skipBlanks
  rw [rest_within, htake, advance_within (List.takeWhile_sublist _).length_le]

theorem length_skipBlanks_within :
    (c.within front back).skipBlanks.rest.length ≤ c.skipBlanks.rest.length + back.length := by
  by_cases h : c.skipBlanks.rest = []
  · obtain ⟨b, hp, hb, -⟩ := passes_skipBlanks c
    obtain ⟨b', hp', -, hstop⟩ := passes_skipBlanks (c.within front back)
    have hsplit : b' ++ (c.within front back).skipBlanks.rest = b ++ back := by
      rw [← hp'.rest_eq, rest_within, hp.rest_eq, h, List.append_nil]
    rcases List.append_eq_append_iff.mp hsplit with ⟨v, hv, hback⟩ | ⟨v, hv, hback⟩
    · -- the blanks that were there would have to be skipped
      cases v with
      | nil =>
        rw [List.nil_append] at hback
        exact Nat.le_trans (Nat.le_of_eq (congrArg List.length hback)) (Nat.le_add_left _ _)
      | cons x v =>
        have hblank := hb x (by rw [hv]; simp)
        rw [hstop x _ hback] at hblank
        exact absurd hblank (by decide)
    · have hlen := congrArg List.length hback
      rw [List.length_append] at hlen
      omega
  · have hrest : (c.within front back).skipBlanks.rest = c.skipBlanks.rest ++ back := by
      rw [skipBlanks_within (Or.inl h), rest_within]
    exact Nat.le_of_eq ((congrArg List.length hrest).trans List.length_append)

end Cursor

/-! ## Brackets -/

namespace Brackets

/-- A blank is no letter of an address, nor is a mark of importance. -/
theorem toLower_of_parts {ch : Char} (h : parts ch = true) : ch.toLower = ch := by
  rcases Bool.or_eq_true_iff.mp h with h | h
  · have hcapital : ¬ (ch.val ≥ 'A'.val ∧ ch.val ≤ 'Z'.val) := by
      rintro ⟨hlow, hhigh⟩
      have hlow' : 65 ≤ ch.toNat := hlow
      have hhigh' : ch.toNat ≤ 90 := hhigh
      simp only [Text.isBlank, Text.blankRanges, List.any_cons, List.any_nil, Bool.or_eq_true,
        Bool.and_eq_true, decide_eq_true_eq, Bool.or_false] at h
      omega
    exact dif_neg hcapital
  · rw [of_decide_eq_true h]
    decide

theorem afterUrl_append_parts {ch : Char} (h : parts ch = true) (r : Text) :
    ∀ w : Text, afterUrl (w ++ ch :: r) = afterUrl w := by
  have hl : ch ≠ 'l' := by rintro rfl; exact absurd h (by decide)
  have hr : ch ≠ 'r' := by rintro rfl; exact absurd h (by decide)
  have hu : ch ≠ 'u' := by rintro rfl; exact absurd h (by decide)
  -- an address begins three characters back, so only the last three before the blank matter
  rintro (_ | ⟨_, _ | ⟨_, _ | ⟨_, _⟩⟩⟩)
  · rcases r with _ | ⟨_, _ | ⟨_, _⟩⟩
    · rfl
    · rfl
    · simp [afterUrl, toLower_of_parts h, hl]
  · rcases r with _ | ⟨_, _⟩
    · rfl
    · simp [afterUrl, toLower_of_parts h, hr]
  · simp [afterUrl, toLower_of_parts h, hu]
  · rfl

/-- The scanner does not look over a blank behind it, nor over a mark of importance. -/
theorem sameBehind_append {front : Text} (hfront : SetOff front) (before : Text) :
    SameBehind before (before ++ front) := by
  intro y
  cases front with
  | nil => rw [List.append_nil]
  | cons ch r =>
    rw [← List.append_assoc]
    exact (afterUrl_append_parts (hfront ch r rfl) r _).symm

/-- A scan that takes a step ends behind it, whatever is further ahead. -/
theorem Step.lt_of_reach {before before' t p u : Text} {s s' : State} {n : Nat}
    (h : Step before t s p s') (hreach : s.reach before' (p ++ u) = some n) : p.length < n := by
  -- what is taken for a step is at least as long as `p`, or else it would not be one
  have longer : ∀ {s'' : State}, Step before' u s p s'' → p.length < n := by
    intro s'' hstep
    rw [hstep.reach_eq] at hreach
    obtain ⟨m, hm, rfl⟩ := Option.map_eq_some_iff.mp hreach
    have := (reach_pos hm).1
    omega
  have single : ∀ {c : Char}, p = [c] → (s.mode = .code → isClosing c = false) → p.length < n := by
    rintro c rfl hgoes
    rcases exists_step s before' (List.append_ne_nil_of_left_ne_nil h.ne_nil u) with
      ⟨hmode, -, x, v, htext, hclose⟩ | ⟨q, v, s'', htext, hstep⟩
    · rw [← (List.cons.inj htext).1, hgoes hmode] at hclose
      exact absurd hclose Bool.false_ne_true
    · rw [htext, hstep.reach_eq] at hreach
      obtain ⟨m, hm, rfl⟩ := Option.map_eq_some_iff.mp hreach
      have := (reach_pos hm).1
      have := List.length_pos_iff.mpr hstep.ne_nil
      rw [List.length_singleton]
      omega
  cases h with
  | lineComment c => exact longer (.lineComment c)
  | blockCommentEnd => exact longer .blockCommentEnd
  | quotedEscape c => exact longer (.quotedEscape c)
  | escape c => exact longer (.escape c)
  | blockCommentStart => exact longer .blockCommentStart
  | lineCommentStart => exact longer .lineCommentStart
  | quote hquote => exact longer (.quote hquote)
  | opening hopen => exact longer (.opening hopen)
  | closing hclose hdepth => exact longer (.closing hclose hdepth)
  | blockComment => exact single rfl fun h => absurd h (by simp)
  | quoted => exact single rfl fun h => absurd h (by simp)
  | other hsingle hquote hopen hclose => exact single rfl fun _ => hclose

/-- Both scans take a step over so many characters. -/
theorem map_add_iff {x y : Option Nat} {k n l : Nat}
    (h : ∀ m, m ≤ l → (x = some m ↔ y = some m)) (hn : n ≤ l + k) :
    x.map (· + k) = some n ↔ y.map (· + k) = some n := by
  rw [Option.map_eq_some_iff, Option.map_eq_some_iff]
  constructor
  · rintro ⟨m, hm, rfl⟩
    exact ⟨m, (h m (by omega)).mp hm, rfl⟩
  · rintro ⟨m, hm, rfl⟩
    exact ⟨m, (h m (by omega)).mpr hm, rfl⟩

theorem State.reach_append {s : State} {before t : Text} (u : Text) {before' : Text}
    (hb : SameBehind before before') {n : Nat} (hn : n ≤ t.length) :
    s.reach before' (t ++ u) = some n ↔ s.reach before t = some n := by
  induction s, before, t using State.induction generalizing n before' with
  | nil s before =>
    constructor
    · intro h
      have := (reach_pos h).1
      rw [List.length_nil] at hn
      omega
    · intro h
      exact absurd h (by simp)
  | stop depth url before c t hclose hdepth =>
    rw [List.cons_append, State.reach_stop hclose hdepth, State.reach_stop hclose hdepth]
  | step s before p t s' hstep ih =>
    rw [hstep.reach_eq, List.append_assoc]
    cases t with
    | nil =>
      rw [List.append_nil] at hn
      constructor
      · intro h
        have := hstep.lt_of_reach h
        omega
      · intro h
        exact absurd h (by simp)
    | cons x t =>
      rw [(hstep.append hb.afterUrl_eq (List.cons_ne_nil x t) u).reach_eq]
      rw [List.length_append, Nat.add_comm] at hn
      exact map_add_iff (fun m hm => ih (hb.append p.reverse) hm) hn

/-- A scan ends inside of a text just where it ends in a longer one. -/
theorem reach_within {mode : Mode} {depth : Nat} {url : Option Nat} {before t : Text} (u : Text)
    {before' : Text} (hb : SameBehind before before') {n : Nat} (hn : n ≤ t.length) :
    reach mode depth url before' (t ++ u) = some n ↔ reach mode depth url before t = some n :=
  State.reach_append (s := ⟨mode, depth, url⟩) u hb hn

/-- A bracket that closes, or has nothing added behind it, extends as far as before. -/
theorem closing_within {front back : Text} (hfront : SetOff front) {c : Cursor}
    (h : (closing c).closed = true ∨ back = []) :
    closing (c.within front back) = closing c := by
  have hb := sameBehind_append hfront c.before
  have hreach : ∀ n, n ≤ c.rest.length →
      (reach .code 0 none (c.before ++ front) (c.rest ++ back) = some n ↔
        reach .code 0 none c.before c.rest = some n) := fun n hn => reach_within back hb hn
  unfold closing Cursor.within
  dsimp only
  cases hk : reach .code 0 none c.before c.rest with
  | some n => rw [(hreach n (reach_pos hk).2).mpr hk]
  | none =>
    rcases h with hclosed | rfl
    · rw [closing, hk] at hclosed
      exact absurd hclosed Bool.false_ne_true
    · cases hk' : reach .code 0 none (c.before ++ front) (c.rest ++ []) with
      | none => rw [List.append_nil]
      | some n =>
        have hn := (reach_pos hk').2
        rw [List.append_nil] at hn
        rw [(hreach n hn).mp hk'] at hk
        exact absurd hk (by simp)

/-- A bracket that does not close does not close in the longer source if no closing bracket is
added. -/
theorem closed_within {front back : Text} (hfront : SetOff front)
    (hback : ∀ ch ∈ back, isClosing ch = false) {c : Cursor} (h : (closing c).closed = false) :
    (closing (c.within front back)).closed = false := by
  have hb := sameBehind_append hfront c.before
  unfold closing Cursor.within
  dsimp only
  cases hk : reach .code 0 none (c.before ++ front) (c.rest ++ back) with
  | none => rfl
  | some n =>
    by_cases hn : n ≤ c.rest.length
    · rw [closing, (reach_within back hb hn).mp hk] at h
      exact absurd h (by simp)
    · -- the bracket that closes would be among what was added
      obtain ⟨body, close, r, hsplit, hclose, rfl⟩ := exists_of_reach hk
      rcases List.append_eq_append_iff.mp hsplit with ⟨v, hv, hadded⟩ | ⟨v, hv, hadded⟩
      · rw [hback close (by rw [hadded]; simp)] at hclose
        exact absurd hclose Bool.false_ne_true
      · have hlen := congrArg List.length hv
        rw [List.length_append] at hlen
        cases v with
        | nil =>
          rw [hback close (by rw [List.nil_append] at hadded; rw [← hadded]; simp)] at hclose
          exact absurd hclose Bool.false_ne_true
        | cons x v =>
          rw [List.length_cons] at hlen
          omega

/-- A bracket that does not close takes all of what it had. -/
theorem length_closing_within {front back : Text} (hfront : SetOff front) {c : Cursor}
    (h : (closing c).closed = false) :
    ((c.within front back).advance (closing (c.within front back)).length).rest.length ≤
      back.length := by
  have hb := sameBehind_append hfront c.before
  have hnone : reach .code 0 none c.before c.rest = none := by
    cases hk : reach .code 0 none c.before c.rest with
    | none => rfl
    | some n =>
      rw [closing, hk] at h
      exact absurd h (by simp)
  rw [Cursor.rest_advance, List.length_drop, Cursor.rest_within, List.length_append]
  unfold closing Cursor.within
  dsimp only
  cases hk : reach .code 0 none (c.before ++ front) (c.rest ++ back) with
  | none =>
    dsimp only
    rw [List.length_append]
    omega
  | some n =>
    by_cases hn : n ≤ c.rest.length
    · rw [(reach_within back hb hn).mp hk] at hnone
      exact absurd hnone (by simp)
    · dsimp only
      omega

theorem length_closing_le (c : Cursor) : (closing c).length ≤ c.rest.length := by
  unfold closing
  split
  · rename_i n hk
    exact (reach_pos hk).2
  · exact Nat.le_refl _

/-- What leaves too little of the source leaves too little of the longer one. -/
theorem length_advance_within {front back : Text} (hfront : SetOff front) {c : Cursor} {stop : Nat}
    (hstop : 1 ≤ stop)
    (h : (closing c).closed = true → (c.advance (closing c).length).rest.length < stop) :
    ((c.within front back).advance (closing (c.within front back)).length).rest.length <
      stop + back.length := by
  cases hclosed : (closing c).closed with
  | true =>
    rw [closing_within hfront (Or.inl hclosed), Cursor.advance_within (length_closing_le c),
      Cursor.rest_within, List.length_append]
    have := h hclosed
    omega
  | false =>
    -- what does not close takes everything, so it leaves no more than was added
    have hle : ((c.within front back).advance
        (closing (c.within front back)).length).rest.length ≤ back.length :=
      length_closing_within hfront hclosed
    omega

theorem inner_within {front back : Text} {c : Cursor} {k : Closing} (hc : c.rest ≠ [])
    (hk : k.length ≤ c.rest.length) :
    inner (c.within front back) k = (inner c k).shift (Text.bytes front) := by
  obtain ⟨x, r, hx⟩ := List.exists_cons_of_ne_nil hc
  unfold inner
  rw [Cursor.advance_within (by rw [hx, List.length_cons]; omega), Cursor.ahead_within]
  rw [Cursor.rest_advance, List.length_drop]
  unfold Closing.inner
  split <;> omega

end Brackets

/-! ## Separators -/

/-- A separator does not reach over what is added. -/
theorem Separator.startsIn_within (sep : Separator) {back : Text} (hback : SetOff back) (t : Text) :
    sep.startsIn (t ++ back) = sep.startsIn t := by
  cases back with
  | nil => rw [List.append_nil]
  | cons ch r =>
    refine sep.startsIn_append_cons ?_
    rcases Bool.or_eq_true_iff.mp (hback ch r rfl) with h | h
    · rw [separates, h]
      rfl
    · rw [of_decide_eq_true h]
      decide

end UtilityCss
