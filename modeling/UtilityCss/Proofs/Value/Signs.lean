import Mathlib.Data.List.Infix
import UtilityCss.Proofs.Text
import UtilityCss.Proofs.Value.Spacing

/-!
# Where spaces are put around signs

A sign is written either as it is or between two spaces (`piece`), so a spaced text holds all
characters of the text in their order.  What is decided at a sign depends on the character behind
it, on the word and the levels, and on what is written.  A second pass comes to the same decisions:
at a space it forgets the word, as the first pass does at a sign that gets spaces, and such a sign
then stands between two spaces, where no operand ends (`spaced_spaced`).

Signs get spaces inside of parentheses only that hold arithmetic.  Such a parenthesis is the one of
a math function, or it stands in one without a name of its own, which is what `Tracked` keeps along
the text.  The function is told by the word in front of the parenthesis.  A hyphen ends a word
outside of arithmetic, so of a name with hyphens only the last part counts, and `foo-calc(1+2)` is
spaced out like a call of `calc`.
-/

namespace UtilityCss
namespace Value

namespace Spacing

/-! ## What is written for a character -/

/-- Does the sign stand between two operands of arithmetic? -/
def isBinary (s : Spacing) (c : Char) (next : Option Char) : Bool :=
  (c = '+' || c = '-') && s.inMath && s.written.head?.any endsOperand && next.any startsOperand
    && !(c = '-' && s.inExponent next) && !(c = '-' && !s.word.isEmpty && next.any Char.isAlpha)

/-- What is written for a character. -/
def piece (s : Spacing) (c : Char) (next : Option Char) : Text :=
  if s.isBinary c next then [' ', c, ' '] else [c]

/-- What is written for a text. -/
def spaced : Spacing → Text → Text
  | _, [] => []
  | s, c :: t => s.piece c t.head? ++ spaced (s.step c t.head?) t

theorem isBinary_of_not_sign {c : Char} (h : ¬(c = '+' ∨ c = '-')) (s : Spacing)
    (next : Option Char) : s.isBinary c next = false := by
  rw [not_or] at h
  simp [isBinary, h.1, h.2]

theorem isSign_of_isBinary {s : Spacing} {c : Char} {next : Option Char}
    (h : s.isBinary c next = true) : c = '+' ∨ c = '-' := by
  by_contra hc
  rw [isBinary_of_not_sign hc] at h
  exact Bool.noConfusion h

theorem written_step (s : Spacing) (c : Char) (next : Option Char) :
    (s.step c next).written = (s.piece c next).reverse ++ s.written := by
  have hplain : ¬(c = '+' ∨ c = '-') ∨ s.inMath = false → s.isBinary c next = false := by
    rintro (hc | hmath)
    · exact isBinary_of_not_sign hc s next
    · simp [isBinary, hmath]
  unfold piece step
  split
  next hopen => rw [hplain (Or.inl (by rw [hopen]; decide))]; rfl
  split
  next hclose => rw [hplain (Or.inl (by rw [hclose]; decide))]; rfl
  split
  next hsign =>
    rw [Bool.and_eq_true] at hsign
    have hbinary : s.isBinary c next = (s.written.head?.any endsOperand && next.any startsOperand
        && !(c = '-' && s.inExponent next)
        && !(c = '-' && !s.word.isEmpty && next.any Char.isAlpha)) := by
      rw [isBinary, hsign.1, hsign.2, Bool.true_and, Bool.true_and]
    rw [sign, ← hbinary]
    cases s.isBinary c next <;> rfl
  next hsign =>
    rw [Bool.and_eq_true, not_and_or, Bool.not_eq_true, Bool.not_eq_true] at hsign
    rw [hplain (hsign.imp_left fun hc => by simpa using hc)]
    split <;> rfl

theorem written_run : ∀ (s : Spacing) (t : Text),
    (s.run t).written = (s.spaced t).reverse ++ s.written
  | s, [] => rfl
  | s, c :: t => by
    rw [run, written_run, written_step, spaced, List.reverse_append, List.append_assoc]

/-! ## A second pass -/

/-- Only at a sign the next character matters. -/
theorem step_congr {c : Char} (h : ¬(c = '+' ∨ c = '-')) (s : Spacing) (next next' : Option Char) :
    s.step c next = s.step c next' := by
  have hsign : ((decide (c = '+') || decide (c = '-')) && s.inMath) = false := by
    rw [not_or] at h
    rw [decide_eq_false h.1, decide_eq_false h.2]
    rfl
  unfold step
  simp only [hsign, if_neg Bool.false_ne_true]

theorem piece_of_not_sign {c : Char} (h : ¬(c = '+' ∨ c = '-')) (s : Spacing)
    (next : Option Char) : s.piece c next = [c] := by
  rw [piece, isBinary_of_not_sign h, if_neg Bool.false_ne_true]

theorem step_sign {c : Char} (h : c = '+' ∨ c = '-') {s : Spacing} (hmath : s.inMath = true)
    (next : Option Char) : s.step c next = s.sign c next := by
  unfold step
  rcases h with rfl | rfl <;> simp [hmath]

/-- At a binary sign the word is forgotten. -/
theorem step_of_isBinary {s : Spacing} {c : Char} {next : Option Char}
    (h : s.isBinary c next = true) :
    s.step c next = { s with word := [], written := ' ' :: c :: ' ' :: s.written } := by
  have hc := isSign_of_isBinary h
  simp only [isBinary, Bool.and_eq_true, Bool.not_eq_true'] at h
  obtain ⟨⟨⟨⟨⟨-, hmath⟩, hends⟩, hstarts⟩, hexponent⟩, hword⟩ := h
  rw [step_sign hc hmath]
  simp [sign, hends, hstarts, hexponent, hword]

/-- At a space the word is forgotten. -/
theorem step_space (s : Spacing) (next : Option Char) :
    s.step ' ' next = { s with word := [], written := ' ' :: s.written } := by
  unfold step
  rw [if_neg (by decide), if_neg (by decide), if_neg (by simp), if_neg (by decide)]

/-- In front of a space a sign is no binary one. -/
theorem isBinary_space (s : Spacing) (c : Char) : s.isBinary c (some ' ') = false := by
  have hspace : (some ' ').any startsOperand = false := by decide
  rw [isBinary, hspace]
  simp

/-- A sign that got its spaces leads a second pass to the same state. -/
theorem step_spaces {s : Spacing} {c : Char} {next : Option Char} (h : s.isBinary c next = true)
    (next' next'' : Option Char) :
    ((s.step ' ' next').step c (some ' ')).step ' ' next'' = s.step c next := by
  have hmath : s.inMath = true := by
    simp only [isBinary, Bool.and_eq_true] at h
    exact h.1.1.1.1.2
  have hmath' : Spacing.inMath { s with word := [], written := ' ' :: s.written } = true := hmath
  have hends : endsOperand ' ' = false := by decide
  rw [step_of_isBinary h, step_space, step_space, step_sign (isSign_of_isBinary h) hmath']
  simp [sign, hends]

/-- Where no operand has ended nothing is put in front of the next character. -/
theorem head?_spaced {s : Spacing} (h : s.written.head?.any endsOperand = false) (t : Text) :
    (s.spaced t).head? = t.head? := by
  cases t with
  | nil => rfl
  | cons c t =>
    have hbinary : s.isBinary c t.head? = false := by simp [isBinary, h]
    rw [spaced, piece, hbinary]
    rfl

/-- A spaced text is left as it is. -/
theorem spaced_spaced : ∀ (s : Spacing) (t : Text), s.spaced (s.spaced t) = s.spaced t
  | s, [] => rfl
  | s, c :: t => by
    have ih := spaced_spaced (s.step c t.head?) t
    rw [spaced]
    cases hbinary : s.isBinary c t.head? with
    | true =>
      have hpiece : s.piece c t.head? = [' ', c, ' '] := by rw [piece, hbinary]; rfl
      have hsign : ((s.step ' ' (some c)).piece c (some ' ')) = [c] := by
        rw [piece, isBinary_space]
        rfl
      rw [hpiece, List.cons_append, List.cons_append, List.singleton_append, spaced,
        piece_of_not_sign (by decide), spaced, List.head?_cons, List.head?_cons, hsign, spaced,
        piece_of_not_sign (by decide), step_spaces hbinary, ih]
      rfl
    | false =>
      have hpiece : s.piece c t.head? = [c] := by rw [piece, hbinary]; rfl
      rw [hpiece, List.singleton_append, spaced]
      by_cases hc : c = '+' ∨ c = '-'
      · -- behind a sign that is written as it is nothing is inserted
        have hends : (s.step c t.head?).written.head?.any endsOperand = false := by
          rw [written_step, hpiece]
          rcases hc with rfl | rfl <;> rfl
        rw [head?_spaced hends, hpiece, ih]
        rfl
      · rw [piece_of_not_sign hc, step_congr hc s _ t.head?, ih]
        rfl

/-- A text without signs is written as it is. -/
theorem exists_spaced_append {part : Text} (b : Text) : ∀ {s : Spacing},
    (∀ c ∈ part, ¬(c = '+' ∨ c = '-')) →
      ∃ s' : Spacing, s.spaced (part ++ b) = part ++ s'.spaced b := by
  induction part with
  | nil => exact fun {s} _ => ⟨s, rfl⟩
  | cons c part ih =>
    intro s h
    obtain ⟨hc, h⟩ := List.forall_mem_cons.mp h
    obtain ⟨s', hs'⟩ := ih (s := s.step c (part ++ b).head?) h
    exact ⟨s', by rw [List.cons_append, spaced, piece_of_not_sign hc, hs']; rfl⟩

/-- A part without signs is found again in the spaced text. -/
theorem includes_spaced {part : Text} (hpart : ∀ c ∈ part, ¬(c = '+' ∨ c = '-')) {s : Spacing}
    {t : Text} (h : Text.includes t part = true) : Text.includes (s.spaced t) part = true := by
  obtain ⟨a, b, rfl⟩ := Text.includes_iff.mp h
  suffices hfound : ∃ u v, s.spaced (a ++ part ++ b) = u ++ part ++ v from
    Text.includes_iff.mpr hfound
  clear h
  induction a generalizing s with
  | nil =>
    obtain ⟨s', hs'⟩ := exists_spaced_append b hpart
    exact ⟨[], s'.spaced b, hs'⟩
  | cons c a ih =>
    obtain ⟨u, v, huv⟩ := ih (s := s.step c (a ++ part ++ b).head?)
    exact ⟨s.piece c (a ++ part ++ b).head? ++ u, v, by
      rw [List.cons_append, List.cons_append, spaced, huv]
      simp⟩

end Spacing

/-- A text is only read where the name of a function of arithmetic is in front of a parenthesis. -/
theorem spaceMath_eq (t : Text) : spaceMath t =
    if mathFunctions.any fun f => Text.includes t (f ++ ['(']) then Spacing.spaced ⟨[], [], []⟩ t
    else t := by
  rw [spaceMath, Spacing.written_run, List.append_nil, List.reverse_reverse]

theorem spaceMath_spaceMath (t : Text) : spaceMath (spaceMath t) = spaceMath t := by
  have hplain : ∀ f ∈ mathFunctions, ∀ c ∈ f ++ ['('], ¬(c = '+' ∨ c = '-') := by decide
  rw [spaceMath_eq t]
  split
  next hmath =>
    obtain ⟨f, hf, hcall⟩ := List.any_eq_true.mp hmath
    have hcall' := Spacing.includes_spaced (s := ⟨[], [], []⟩) (hplain f hf) hcall
    rw [spaceMath_eq, if_pos (List.any_eq_true.mpr ⟨f, hf, hcall'⟩), Spacing.spaced_spaced]
  next hmath => rw [spaceMath_eq, if_neg hmath]

/-! ## Inside of parentheses -/

/-- The text is `t` with a space on each side of some signs that stand where `inside` holds of the
text in front of them; `before` is the text in front of `t`. -/
inductive Spaces (inside : Text → Prop) : Text → Text → Text → Prop where
  | nil {before : Text} : Spaces inside before [] []
  | keep {before t u : Text} (c : Char) : Spaces inside (before ++ [c]) t u →
    Spaces inside before (c :: t) (c :: u)
  | space {before t u : Text} {c : Char} : c = '+' ∨ c = '-' → inside before →
    Spaces inside (before ++ [c]) t u → Spaces inside before (c :: t) (' ' :: c :: ' ' :: u)

/-- Behind the text one of the parentheses in it is still open of which `opens` holds, as a
statement about the text in front of the parenthesis. -/
def Within (opens : Text → Prop) (before : Text) : Prop :=
  ∃ a b, before = a ++ '(' :: b ∧ opens a ∧ ∀ p, p <+: b → p.count ')' ≤ p.count '('

/-- Is the word in front of a parenthesis the name of a function of arithmetic? -/
def WordOfMath (a : Text) : Prop := wordBehind a.reverse ∈ mathFunctions

instance (a : Text) : Decidable (WordOfMath a) := inferInstanceAs (Decidable (_ ∈ _))

/-- May the character be part of a name? -/
def isNameChar (c : Char) : Bool :=
  c.isAlphanum || c = '-' || c = '_' || decide (0x80 ≤ c.toNat)

/-- Is the whole name in front of a parenthesis that of a function of arithmetic? -/
def NameOfMath (a : Text) : Prop := (a.reverse.takeWhile isNameChar).reverse ∈ mathFunctions

instance (a : Text) : Decidable (NameOfMath a) := inferInstanceAs (Decidable (_ ∈ _))

/-- Every parenthesis that the word in front of it makes one of arithmetic has a function of
arithmetic as its whole name, or stands inside of one. -/
def Named (t : Text) : Prop :=
  ∀ before rest, t = before ++ '(' :: rest → WordOfMath before →
    NameOfMath before ∨ Within NameOfMath before

/-- In the text the parentheses stay open and `k` more are. -/
def Open (k : Nat) (b : Text) : Prop :=
  (∀ p, p <+: b → p.count ')' ≤ p.count '(') ∧ b.count ')' + k ≤ b.count '('

namespace Open

variable {k : Nat} {b : Text}

theorem nil : Open 0 [] :=
  ⟨fun p hp => by rw [List.prefix_nil.mp hp]; exact Nat.le_refl _, Nat.le_refl _⟩

theorem concat {k' : Nat} {c : Char} (h : Open k b)
    (hcount : (b ++ [c]).count ')' + k' ≤ (b ++ [c]).count '(') : Open k' (b ++ [c]) := by
  refine ⟨fun p hp => ?_, hcount⟩
  rcases List.prefix_concat_iff.mp hp with rfl | hp
  · omega
  · exact h.1 p hp

theorem opening (h : Open k b) : Open (k + 1) (b ++ ['(']) :=
  h.concat (by have := h.2; simp; omega)

theorem closing (h : Open (k + 1) b) : Open k (b ++ [')']) :=
  h.concat (by have := h.2; simp; omega)

theorem other {c : Char} (h : Open k b) (hopen : c ≠ '(') (hclose : c ≠ ')') : Open k (b ++ [c]) :=
  h.concat (by
    have := h.2
    simpa [List.count_append, List.count_singleton, hopen, hclose] using this)

theorem mono {k' : Nat} (h : Open k b) (hk : k' ≤ k) : Open k' b :=
  ⟨h.1, by have := h.2; omega⟩

end Open

/-- A parenthesis of which `opens` holds is still open behind the text, and so are `k` of those
behind it. -/
def WithinAt (opens : Text → Prop) (k : Nat) (before : Text) : Prop :=
  ∃ a b, before = a ++ '(' :: b ∧ opens a ∧ Open k b

theorem WithinAt.within {opens : Text → Prop} {k : Nat} {before : Text}
    (h : WithinAt opens k before) : Within opens before := by
  obtain ⟨a, b, hbefore, hopens, hopen⟩ := h
  exact ⟨a, b, hbefore, hopens, hopen.1⟩

/-- One more character in the parenthesis. -/
theorem WithinAt.concat {opens : Text → Prop} {k k' : Nat} {before : Text} {c : Char}
    (h : WithinAt opens k before) (hopen : ∀ b, Open k b → Open k' (b ++ [c])) :
    WithinAt opens k' (before ++ [c]) := by
  obtain ⟨a, b, rfl, hopens, hb⟩ := h
  exact ⟨a, b ++ [c], by simp, hopens, hopen b hb⟩

namespace Spacing

/-- What the state knows of the text read so far: each level that holds arithmetic stands in a
parenthesis of a function of arithmetic, and the word ends with the word right behind the place,
from which only a hyphen parts it. -/
structure Tracked (before : Text) (s : Spacing) : Prop where
  levels : ∀ k, s.levels[k]? = some true → WithinAt WordOfMath k before
  word : ∃ w, s.word.reverse = w ++ wordBehind before.reverse ∧ (w = [] ∨ '-' ∈ w)

/-- A word that names a function of arithmetic is the one right behind the place. -/
theorem Tracked.wordOfMath {before : Text} {s : Spacing} (h : s.Tracked before)
    (hword : s.word.reverse ∈ mathFunctions) : WordOfMath before := by
  have hplain : ∀ f ∈ mathFunctions, '-' ∉ f := by decide
  obtain ⟨w, hw, rfl | hhyphen⟩ := h.word
  · rwa [WordOfMath, ← List.nil_append (wordBehind _), ← hw]
  · exact absurd (by rw [hw]; exact List.mem_append_left _ hhyphen) (hplain _ hword)

theorem wordBehind_concat_of_not_word {c : Char} (h : isWordChar c = false) (before : Text) :
    wordBehind (before ++ [c]).reverse = [] := by
  rw [List.reverse_append]
  exact wordBehind_of_not_word h _

/-- Behind a character that is no part of a word there is none. -/
theorem exists_word_of_not_word {c : Char} (h : isWordChar c = false) (before : Text) :
    ∃ w, ([] : Text).reverse = w ++ wordBehind (before ++ [c]).reverse ∧ (w = [] ∨ '-' ∈ w) :=
  ⟨[], by rw [wordBehind_concat_of_not_word h]; rfl, Or.inl rfl⟩

/-- Behind a sign there is at most a word that goes on with a hyphen. -/
theorem exists_word_of_sign {c : Char} (hc : c = '+' ∨ c = '-') (s : Spacing) (next : Option Char)
    (before : Text) : ∃ w, (s.sign c next).word.reverse = w ++ wordBehind (before ++ [c]).reverse ∧
      (w = [] ∨ '-' ∈ w) := by
  have hnot : isWordChar c = false := by
    rcases hc with rfl | rfl <;> decide
  rw [sign]
  dsimp only
  split
  next hin =>
    obtain rfl : c = '-' := by
      simp only [Bool.and_eq_true, decide_eq_true_eq] at hin
      exact hin.1.1
    exact ⟨('-' :: s.word).reverse, by rw [wordBehind_concat_of_not_word hnot, List.append_nil],
      Or.inr (by simp)⟩
  next => exact exists_word_of_not_word hnot before

theorem levels_of_inMath {s : Spacing} (h : s.inMath = true) : s.levels[0]? = some true := by
  rw [← List.head?_eq_getElem?]
  exact LawfulBEq.eq_of_beq h

namespace Tracked

variable {before : Text} {s : Spacing} (h : s.Tracked before)
include h

/-- A parenthesis that is opened holds arithmetic if it has the name of a function of arithmetic,
or has none and stands in arithmetic. -/
theorem levels_opening (k : Nat)
    (hk : ((decide (s.word.reverse ∈ mathFunctions) || s.word.isEmpty && s.inMath) :: s.levels)[k]?
      = some true) : WithinAt WordOfMath k (before ++ ['(']) := by
  cases k with
  | zero =>
    have hmath : (decide (s.word.reverse ∈ mathFunctions) || s.word.isEmpty && s.inMath) = true :=
      Option.some.inj hk
    rw [Bool.or_eq_true, decide_eq_true_eq, Bool.and_eq_true] at hmath
    rcases hmath with hword | ⟨-, hmath⟩
    · exact ⟨before, [], rfl, h.wordOfMath hword, .nil⟩
    · exact (h.levels 0 (levels_of_inMath hmath)).concat fun b hb =>
        hb.opening.mono (Nat.zero_le 1)
  | succ k => exact (h.levels k hk).concat fun b hb => hb.opening

/-- The word and the one right behind the place grow by the same character. -/
theorem word_concat {c : Char} (hword : isWordChar c = true) :
    ∃ w, (if c.isAlpha || !s.word.isEmpty then c :: s.word else s.word).reverse =
      w ++ wordBehind (before ++ [c]).reverse ∧ (w = [] ∨ '-' ∈ w) := by
  obtain ⟨w, hw, hhyphen⟩ := h.word
  have hbehind : wordBehind (before ++ [c]).reverse =
      if c.isAlpha || !(wordBehind before.reverse).isEmpty then wordBehind before.reverse ++ [c]
      else [] := by
    rw [List.reverse_append]
    exact wordBehind_cons hword _
  rw [hbehind]
  cases halpha : c.isAlpha with
  | true => exact ⟨w, by simp [hw], hhyphen⟩
  | false =>
    cases hempty : wordBehind before.reverse with
    | cons x u =>
      have hne : s.word.isEmpty = false := by
        rw [← List.isEmpty_reverse, hw, hempty]
        simp
      exact ⟨w, by simp [hne, hw, hempty], hhyphen⟩
    | nil =>
      -- a digit begins no word, but it goes on with one that a hyphen parts from it
      rw [hempty, List.append_nil] at hw
      cases hne : s.word.isEmpty with
      | true =>
        rw [List.isEmpty_iff] at hne
        exact ⟨[], by simp [hne], Or.inl rfl⟩
      | false =>
        have hw' : w ≠ [] := by
          rintro rfl
          simp [List.reverse_eq_nil_iff.mp hw] at hne
        exact ⟨w ++ [c], by simp [hw], Or.inr (List.mem_append_left _ (hhyphen.resolve_left hw'))⟩

theorem step (c : Char) (next : Option Char) : (s.step c next).Tracked (before ++ [c]) := by
  have other : c ≠ '(' → c ≠ ')' → ∀ k, s.levels[k]? = some true →
      WithinAt WordOfMath k (before ++ [c]) := fun hopen hclose k hk =>
    (h.levels k hk).concat fun b hb => hb.other hopen hclose
  unfold Spacing.step
  split
  next hopen =>
    subst hopen
    exact ⟨h.levels_opening, exists_word_of_not_word (by decide) before⟩
  split
  next hclose =>
    subst hclose
    refine ⟨fun k hk => ?_, exists_word_of_not_word (by decide) before⟩
    rw [List.getElem?_tail] at hk
    exact (h.levels (k + 1) hk).concat fun b hb => hb.closing
  next hopen hclose =>
  split
  next hsign =>
    rw [Bool.and_eq_true] at hsign
    exact ⟨other hopen hclose, exists_word_of_sign (by simpa using hsign.1) s next before⟩
  split
  next hword => exact ⟨other hopen hclose, h.word_concat hword⟩
  next hword =>
    exact ⟨other hopen hclose, exists_word_of_not_word (Bool.eq_false_iff.mpr hword) before⟩

end Tracked

/-- A space is put beside signs only that stand in the parentheses of a function of arithmetic. -/
theorem Tracked.spaces : ∀ {t before : Text} {s : Spacing}, s.Tracked before →
    Spaces (Within WordOfMath) before t (s.spaced t)
  | [], _, _, _ => .nil
  | c :: t, before, s, h => by
    have ih : Spaces (Within WordOfMath) (before ++ [c]) t ((s.step c t.head?).spaced t) :=
      (h.step c t.head?).spaces
    rw [spaced, piece]
    split
    next hbinary =>
      have hmath : s.inMath = true := by
        simp only [isBinary, Bool.and_eq_true] at hbinary
        exact hbinary.1.1.1.1.2
      exact .space (isSign_of_isBinary hbinary) (h.levels 0 (levels_of_inMath hmath)).within ih
    next => exact .keep c ih

end Spacing

namespace Spaces

variable {inside inside' : Text → Prop} {before t u : Text}

theorem refl : ∀ t before : Text, Spaces inside before t t
  | [], _ => .nil
  | c :: t, _ => .keep c (refl t _)

/-- Only the texts matter that a sign stands behind. -/
theorem mono (h : Spaces inside before t u)
    (hinside : ∀ x y, before ++ t = x ++ y → inside x → inside' x) : Spaces inside' before t u := by
  induction h with
  | nil => exact .nil
  | keep c _ ih => exact .keep c (ih fun x y hxy => hinside x y (by simpa using hxy))
  | space hc hin _ ih =>
    exact .space hc (hinside _ _ rfl hin) (ih fun x y hxy => hinside x y (by simpa using hxy))

/-- Where no sign stands inside of parentheses nothing is inserted. -/
theorem eq (h : Spaces inside before t u) (hinside : ∀ x y, before ++ t = x ++ y → ¬inside x) :
    u = t := by
  induction h with
  | nil => rfl
  | keep c _ ih => rw [ih fun x y hxy => hinside x y (by simpa using hxy)]
  | space _ hin => exact absurd hin (hinside _ _ rfl)

end Spaces

/-- In a text whose parentheses are named, a parenthesis that is open by its word is inside of one
that is by its name. -/
theorem Named.within {t x y : Text} (h : Named t) (ht : t = x ++ y) (hx : Within WordOfMath x) :
    Within NameOfMath x := by
  obtain ⟨a, b, rfl, hword, hopen⟩ := hx
  rcases h a (b ++ y) (by rw [ht]; simp) hword with hname | ⟨a', b', rfl, hname, hopen'⟩
  · exact ⟨a, b, rfl, hname, hopen⟩
  · refine ⟨a', b' ++ '(' :: b, by simp, hname, fun p hp => ?_⟩
    obtain ⟨v, hv⟩ := hp
    rcases List.append_eq_append_iff.mp hv with ⟨w, hw, -⟩ | ⟨w, rfl, hw⟩
    · exact hopen' p ⟨w, hw.symm⟩
    · rcases List.prefix_cons_iff.mp ⟨v, hw.symm⟩ with rfl | ⟨q', rfl, hq'⟩
      · rw [List.append_nil]
        exact hopen' b' (List.prefix_refl b')
      · have hfront := hopen' b' (List.prefix_refl b')
        have hback := hopen q' hq'
        have hcount : ∀ q : Text, ('(' :: q).count ')' = q.count ')' := fun q =>
          List.count_cons_of_ne (by decide)
        simp only [List.count_append, List.count_cons_self, hcount]
        omega

theorem named_of_forall_inits {t : Text}
    (h : ∀ a ∈ t.inits, a ++ ['('] <+: t → WordOfMath a → NameOfMath a) : Named t := by
  rintro before rest rfl hword
  exact Or.inl (h before ((List.mem_inits ..).mpr ⟨'(' :: rest, rfl⟩) ⟨rest, by simp⟩ hword)

theorem not_within_of_forall_inits {t : Text}
    (h : ∀ a ∈ t.inits, a ++ ['('] <+: t → ¬NameOfMath a) {x y : Text} (ht : t = x ++ y) :
    ¬Within NameOfMath x := by
  rintro ⟨a, b, rfl, hname, -⟩
  rw [List.append_assoc] at ht
  exact h a ((List.mem_inits ..).mpr ⟨_, ht.symm⟩) ⟨b ++ y, by rw [ht]; simp⟩ hname

/-- **Spacing out a text a second time changes nothing, and the first time only inserts a space on
each side of some signs inside of parentheses** that the word in front of them makes those of a
function of arithmetic.  If no name ends in such a word, they are the parentheses of a function of
arithmetic. -/
theorem spaceMath_spaces (t : Text) :
    spaceMath (spaceMath t) = spaceMath t ∧
      Spaces (Within WordOfMath) [] t (spaceMath t) ∧
      (Named t → Spaces (Within NameOfMath) [] t (spaceMath t)) := by
  have hspaces : Spaces (Within WordOfMath) [] t (spaceMath t) := by
    have hstart : Spacing.Tracked [] ⟨[], [], []⟩ := ⟨by simp, [], rfl, Or.inl rfl⟩
    rw [spaceMath_eq]
    split
    · exact hstart.spaces
    · exact .refl t []
  exact ⟨spaceMath_spaceMath t, hspaces, fun hnamed =>
    hspaces.mono fun x y ht hx => hnamed.within ht hx⟩

theorem spaceMath_spaces_nested : Named "min(1px-(2em+3px),var(--a-b))" ∧
    Spaces (Within NameOfMath) [] "min(1px-(2em+3px),var(--a-b))"
      "min(1px - (2em + 3px),var(--a-b))" := by
  have hnamed : Named "min(1px-(2em+3px),var(--a-b))" := named_of_forall_inits (by decide)
  have hspaced : spaceMath "min(1px-(2em+3px),var(--a-b))" =
      "min(1px - (2em + 3px),var(--a-b))" := by decide
  exact ⟨hnamed, hspaced ▸ (spaceMath_spaces "min(1px-(2em+3px),var(--a-b))").2.2 hnamed⟩

/-- A function whose name ends in that of a function of arithmetic gets spaces although it is
none. -/
theorem spaceMath_spaces_hyphen : spaceMath "foo-calc(1+2)" = "foo-calc(1 + 2)" ∧
    ¬Spaces (Within NameOfMath) [] "foo-calc(1+2)" (spaceMath "foo-calc(1+2)") := by
  have hspaced : spaceMath "foo-calc(1+2)" = "foo-calc(1 + 2)" := by decide
  refine ⟨hspaced, fun h => ?_⟩
  have hnone : ∀ x y, "foo-calc(1+2)".toList = x ++ y → ¬Within NameOfMath x := fun x y ht =>
    not_within_of_forall_inits (t := "foo-calc(1+2)") (by decide) ht
  rw [hspaced] at h
  exact absurd (h.eq hnone) (by decide)

end Value
end UtilityCss
