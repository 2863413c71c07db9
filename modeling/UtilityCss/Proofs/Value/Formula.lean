import UtilityCss.Proofs.Value.Numeral
import UtilityCss.Proofs.Value.Signs

/-!
# Formulas without and with their spaces

A formula is a call of a function of arithmetic, with numbers, references, pairs of parentheses and
further calls between operators.  Printed without spaces it is spaced out to the same formula with
a space on each side of every sum and difference, apart from two cases.

* The plus sign of an exponent gets spaces as if it were a sum.  Only a minus sign is looked at for
  an exponent.
* A minus sign between letters is a hyphen.  The word in front of it may be the unit of a number,
  or its exponent, and then a difference with a reference or a call stays without spaces.
-/

namespace UtilityCss
namespace Value

/-! ## Formulas -/

/-- The operators of arithmetic. -/
inductive Operator where
  | plus
  | minus
  | star
  | slash
  deriving DecidableEq

/-- The character of the operator. -/
def Operator.char : Operator → Char
  | plus => '+'
  | minus => '-'
  | star => '*'
  | slash => '/'

/-- An operator without spaces. -/
def tight (op : Operator) : Text := [op.char]

/-- An operator with spaces, which only those of sums and differences have. -/
def spread : Operator → Text
  | .plus => [' ', '+', ' ']
  | .minus => [' ', '-', ' ']
  | .star => ['*']
  | .slash => ['/']

/-- A reference to what has this name. -/
structure Reference where
  function : Text
  name : Text
  isReference : function ∈ referenceFunctions
  ne_parenthesis : ∀ c ∈ name, c ≠ '(' ∧ c ≠ ')'

/-- The characters of the reference. -/
def Reference.text (r : Reference) : Text := r.function ++ '(' :: (r.name ++ [')'])

mutual

/-- What operators stand between. -/
inductive Operand where
  | number (n : Numeral)
  | reference (r : Reference)
  | group (c : Calculation)
  | call (f : { f : Text // f ∈ mathFunctions }) (a : Arguments)

/-- Operands with operators between them. -/
inductive Calculation where
  | operand (o : Operand)
  | binary (o : Operand) (op : Operator) (c : Calculation)

/-- The arguments of a call. -/
inductive Arguments where
  | last (c : Calculation)
  | more (c : Calculation) (a : Arguments)

end

mutual

/-- The characters of the operand, with the operators in it written by `write`. -/
def Operand.print (write : Operator → Text) : Operand → Text
  | .number n => n.text
  | .reference r => r.text
  | .group c => '(' :: (c.print write ++ [')'])
  | .call f a => f.1 ++ '(' :: (a.print write ++ [')'])

/-- The characters of the calculation. -/
def Calculation.print (write : Operator → Text) : Calculation → Text
  | .operand o => o.print write
  | .binary o op c => o.print write ++ (write op ++ c.print write)

/-- The characters of the arguments. -/
def Arguments.print (write : Operator → Text) : Arguments → Text
  | .last c => c.print write
  | .more c a => c.print write ++ ',' :: a.print write

end

section

variable (write : Operator → Text) (r : Text)

theorem print_group (c : Calculation) :
    (Operand.group c).print write ++ r = '(' :: (c.print write ++ ')' :: r) := by
  simp [Operand.print]

theorem print_call (f : { f : Text // f ∈ mathFunctions }) (a : Arguments) :
    (Operand.call f a).print write ++ r = f.1 ++ '(' :: (a.print write ++ ')' :: r) := by
  simp [Operand.print]

theorem print_tight_binary (o : Operand) (op : Operator) (c : Calculation) :
    (Calculation.binary o op c).print tight ++ r =
      o.print tight ++ op.char :: (c.print tight ++ r) := by
  simp [Calculation.print, tight]

theorem print_more (c : Calculation) (a : Arguments) :
    (Arguments.more c a).print write ++ r = c.print write ++ ',' :: (a.print write ++ r) := by
  simp [Arguments.print]

end

/-! ## The two exceptions -/

/-- Does the number have an exponent with a plus sign? -/
def Numeral.hasPlus (n : Numeral) : Bool := n.exponent.any fun e => e.sign = ['+']

/-- Does the number end in letters, or in letters and digits behind them? -/
def Numeral.endsInWord (n : Numeral) : Bool :=
  if n.unit = [] then n.exponent.any fun e => e.sign = [] else n.unit ≠ ['%']

/-- Does the operand end in letters, or in letters and digits behind them? -/
def Operand.endsInWord : Operand → Bool
  | .number n => n.endsInWord
  | .reference _ | .group _ | .call _ _ => false

/-- Does the operand begin with a letter? -/
def Operand.startsWithLetter : Operand → Bool
  | .number _ | .group _ => false
  | .reference _ | .call _ _ => true

/-- Does the calculation begin with a letter? -/
def Calculation.startsWithLetter : Calculation → Bool
  | .operand o | .binary o _ _ => o.startsWithLetter

/-- Is the operator in front of the calculation a minus sign between letters? -/
def isHyphen (o : Operand) (op : Operator) (c : Calculation) : Bool :=
  op = .minus && o.endsInWord && c.startsWithLetter

mutual

/-- The operand has no exponent with a plus sign in it and no minus sign between letters. -/
def Operand.isRegular : Operand → Bool
  | .number n => !n.hasPlus
  | .reference _ => true
  | .group c => c.isRegular
  | .call _ a => a.isRegular

/-- The calculation has no exponent with a plus sign in it and no minus sign between letters. -/
def Calculation.isRegular : Calculation → Bool
  | .operand o => o.isRegular
  | .binary o op c => o.isRegular && !isHyphen o op c && c.isRegular

/-- The arguments have no exponent with a plus sign in them and no minus sign between letters. -/
def Arguments.isRegular : Arguments → Bool
  | .last c => c.isRegular
  | .more c a => c.isRegular && a.isRegular

end

/-! ## Texts without signs -/

namespace Spacing

variable {levels : List Bool} {word written : Text}

theorem endsOperand_of_isAlphanum {c : Char} (h : c.isAlphanum = true) : endsOperand c = true := by
  rw [endsOperand, h, Bool.true_or, Bool.true_or]

theorem startsOperand_of_isAlphanum {c : Char} (h : c.isAlphanum = true) :
    startsOperand c = true := by
  rw [startsOperand, h, Bool.true_or, Bool.true_or]

theorem spaced_cons_of_not_sign {c : Char} (h : ¬(c = '+' ∨ c = '-')) (s : Spacing) (t : Text) :
    s.spaced (c :: t) = c :: (s.step c none).spaced t := by
  rw [spaced, piece_of_not_sign h, step_congr h s t.head? none]
  rfl

theorem spaced_opening (t : Text) : spaced ⟨levels, word, written⟩ ('(' :: t) =
    '(' :: spaced ⟨(decide (word.reverse ∈ mathFunctions) ||
      word.isEmpty && inMath ⟨levels, word, written⟩) :: levels, [], '(' :: written⟩ t := by
  rw [spaced_cons_of_not_sign (by decide), step, if_pos rfl]

theorem spaced_closing (t : Text) : spaced ⟨levels, word, written⟩ (')' :: t) =
    ')' :: spaced ⟨levels.tail, [], ')' :: written⟩ t := by
  rw [spaced_cons_of_not_sign (by decide), step, if_neg (by decide), if_pos rfl]

/-- A character between words ends the one in front of it. -/
theorem spaced_separator {c : Char} (h : c ∈ ['.', ',', '*', '/', '%']) (t : Text) :
    spaced ⟨levels, word, written⟩ (c :: t) = c :: spaced ⟨levels, [], c :: written⟩ t := by
  have hc : ¬(c = '+' ∨ c = '-') ∧ c ≠ '(' ∧ c ≠ ')' ∧
      ((decide (c = '+') || decide (c = '-')) = false) ∧
      (c.isAlphanum || decide (c = '_')) = false := by
    revert c
    decide
  obtain ⟨hsign, hopen, hclose, hsign', hword⟩ := hc
  rw [spaced_cons_of_not_sign hsign, step, if_neg hopen, if_neg hclose, hsign', Bool.false_and,
    if_neg Bool.false_ne_true, hword, if_neg Bool.false_ne_true]

theorem spaced_letter_or_digit {c : Char} (h : c.isAlphanum = true) (t : Text) :
    spaced ⟨levels, word, written⟩ (c :: t) = c :: spaced ⟨levels,
      if c.isAlpha || !word.isEmpty then c :: word else word, c :: written⟩ t := by
  have hne : ∀ x : Char, x.isAlphanum = false → c ≠ x := by
    rintro x hx rfl
    exact Bool.noConfusion (hx.symm.trans h)
  have hplus : c ≠ '+' := hne _ (by decide)
  have hminus : c ≠ '-' := hne _ (by decide)
  rw [spaced_cons_of_not_sign (not_or.mpr ⟨hplus, hminus⟩), step, if_neg (hne _ (by decide)),
    if_neg (hne _ (by decide)), decide_eq_false hplus, decide_eq_false hminus, Bool.or_self,
    Bool.false_and, if_neg Bool.false_ne_true, h, Bool.true_or, if_pos rfl]

/-- Digits that are not behind a letter are no word. -/
theorem spaced_digits (r : Text) : ∀ {d written : Text}, (∀ c ∈ d, c.isDigit = true) →
    spaced ⟨levels, [], written⟩ (d ++ r) = d ++ spaced ⟨levels, [], d.reverse ++ written⟩ r
  | [], _, _ => rfl
  | c :: d, written, h => by
    obtain ⟨hc, hd⟩ := List.forall_mem_cons.mp h
    rw [List.cons_append, spaced_letter_or_digit (isAlphanum_of_isDigit hc), isAlpha_of_isDigit hc]
    show c :: spaced ⟨levels, [], c :: written⟩ (d ++ r) = _
    rw [spaced_digits r hd, List.reverse_cons, List.append_assoc]
    rfl

/-- A word goes on with letters and digits. -/
theorem spaced_word (r : Text) : ∀ {u word written : Text}, (∀ c ∈ u, c.isAlphanum = true) →
    word ≠ [] ∨ (∀ c ∈ u.head?, c.isAlpha = true) →
    spaced ⟨levels, word, written⟩ (u ++ r) =
      u ++ spaced ⟨levels, u.reverse ++ word, u.reverse ++ written⟩ r
  | [], _, _, _, _ => rfl
  | c :: u, word, written, h, hstart => by
    obtain ⟨hc, hu⟩ := List.forall_mem_cons.mp h
    have hgoes : (c.isAlpha || !word.isEmpty) = true := by
      rcases hstart with hne | halpha
      · rw [List.isEmpty_eq_false_iff.mpr hne, Bool.not_false, Bool.or_true]
      · rw [halpha c rfl, Bool.true_or]
    rw [List.cons_append, spaced_letter_or_digit hc, if_pos hgoes,
      spaced_word r hu (Or.inl (List.cons_ne_nil c word)), List.reverse_cons, List.append_assoc,
      List.append_assoc]
    rfl

/-- Outside of arithmetic a text without parentheses is written as it is. -/
theorem spaced_plain (levels : List Bool) (r : Text) : ∀ {a : Text} (word written : Text),
    (∀ c ∈ a, c ≠ '(' ∧ c ≠ ')') → ∃ w, spaced ⟨false :: levels, word, written⟩ (a ++ r) =
      a ++ spaced ⟨false :: levels, w, a.reverse ++ written⟩ r
  | [], word, _, _ => ⟨word, rfl⟩
  | c :: a, word, written, h => by
    obtain ⟨hc, ha⟩ := List.forall_mem_cons.mp h
    have hmath : inMath ⟨false :: levels, word, written⟩ = false := rfl
    have hpiece : ∀ next, piece ⟨false :: levels, word, written⟩ c next = [c] := fun next => by
      rw [piece, isBinary, hmath, Bool.and_false]
      rfl
    obtain ⟨w, hw⟩ : ∃ w, step ⟨false :: levels, word, written⟩ c (a ++ r).head? =
        ⟨false :: levels, w, c :: written⟩ := by
      rw [step, if_neg hc.1, if_neg hc.2, hmath, Bool.and_false, if_neg Bool.false_ne_true]
      split
      · exact ⟨_, rfl⟩
      · exact ⟨_, rfl⟩
    obtain ⟨w', hw'⟩ := spaced_plain levels r w (c :: written) ha
    refine ⟨w', ?_⟩
    rw [List.cons_append, spaced, hpiece, hw, hw', List.reverse_cons, List.append_assoc]
    rfl

/-- Behind the name of a function its parenthesis is open. -/
theorem spaced_name {f : Text} (hne : f ≠ []) (hf : ∀ c ∈ f, c.isAlpha = true) (t : Text) :
    spaced ⟨levels, [], written⟩ (f ++ '(' :: t) = f ++ '(' :: spaced
      ⟨decide (f ∈ mathFunctions) :: levels, [], '(' :: (f.reverse ++ written)⟩ t := by
  have hnamed : ∀ c ∈ f, c.isAlphanum = true := fun c hc => isAlphanum_of_isAlpha (hf c hc)
  have hempty : f.reverse.isEmpty = false := by
    rw [List.isEmpty_reverse, List.isEmpty_eq_false_iff]
    exact hne
  rw [spaced_word _ hnamed (Or.inr fun c hc => hf c (List.mem_of_head? hc)), spaced_opening,
    List.append_nil, List.reverse_reverse, hempty, Bool.false_and, Bool.or_false]

end Spacing

/-! ## Numbers -/

section

open Spacing

variable {levels : List Bool} {word written : Text} (n : Numeral)

theorem spaced_mantissa (r : Text) : spaced ⟨levels, [], written⟩ (n.mantissa ++ r) =
    n.mantissa ++ spaced ⟨levels, [], n.mantissa.reverse ++ written⟩ r := by
  rw [Numeral.mantissa, List.append_assoc, spaced_digits _ n.isDigit_of_mem_whole]
  split
  · simp
  · rw [List.cons_append, spaced_separator (by decide), spaced_digits _ n.isDigit_of_mem_places]
    simp

/-- The letter of an exponent is read as a word. -/
theorem spaced_exponentLetter (e : Exponent) (r : Text) :
    spaced ⟨levels, [], written⟩ (e.letter :: r) =
      e.letter :: spaced ⟨levels, [e.letter], e.letter :: written⟩ r := by
  have hletter : e.letter.isAlpha = true := by rcases e.isLetter with h | h <;> rw [h] <;> decide
  rw [spaced_letter_or_digit (isAlphanum_of_isAlpha hletter), hletter, Bool.true_or, if_pos rfl]

/-- The minus sign of an exponent is written as it is. -/
theorem spaced_exponentMinus (e : Exponent) {d x : Char} (hd : d.isDigit = true)
    (hx : x.isDigit = true) (t : Text) :
    spaced ⟨true :: levels, [e.letter], e.letter :: d :: written⟩ ('-' :: x :: t) =
      '-' :: spaced ⟨true :: levels, [], '-' :: e.letter :: d :: written⟩ (x :: t) := by
  have hletter : (decide (e.letter = 'e') || decide (e.letter = 'E')) = true := by
    rw [Bool.or_eq_true, decide_eq_true_eq, decide_eq_true_eq]
    exact e.isLetter
  have hexponent : inExponent ⟨true :: levels, [e.letter], e.letter :: d :: written⟩
      (some x) = true := by
    rw [inExponent, Option.any_some, hx, Bool.and_true]
    dsimp only
    rw [hletter, hd, Bool.and_self]
  have hbinary : isBinary ⟨true :: levels, [e.letter], e.letter :: d :: written⟩ '-'
      (some x) = false := by
    rw [isBinary, hexponent]
    simp
  have hstep : step ⟨true :: levels, [e.letter], e.letter :: d :: written⟩ '-' (some x) =
      ⟨true :: levels, [], '-' :: e.letter :: d :: written⟩ := by
    rw [step_sign (Or.inr rfl) rfl]
    simp [sign, hexponent, isAlpha_of_isDigit hx]
  rw [spaced, List.head?_cons, piece, hbinary, hstep]
  rfl

/-- The plus sign of an exponent gets spaces. -/
theorem spaced_exponentPlus (levels : List Bool) (written : Text) (e : Exponent) {x : Char}
    (hx : x.isDigit = true) (t : Text) :
    ∃ s, spaced ⟨true :: levels, [e.letter], e.letter :: written⟩ ('+' :: x :: t) =
      ' ' :: s := by
  have hletter : endsOperand e.letter = true := by
    rcases e.isLetter with h | h <;> rw [h] <;> decide
  have hdigit : startsOperand x = true := startsOperand_of_isAlphanum (isAlphanum_of_isDigit hx)
  have hbinary : isBinary ⟨true :: levels, [e.letter], e.letter :: written⟩ '+'
      (some x) = true := by
    simp [isBinary, inMath, hletter, hdigit]
  rw [spaced, List.head?_cons, piece, hbinary, if_pos rfl]
  exact ⟨_, rfl⟩

/-- An exponent without a plus sign is written as it is, and leaves a word if it has no sign. -/
theorem spaced_exponent {e : Exponent} (hplus : e.sign ≠ ['+']) {d : Char} (hd : d.isDigit = true)
    (r : Text) : spaced ⟨true :: levels, [], d :: written⟩ (e.text ++ r) =
      e.text ++ spaced ⟨true :: levels, if e.sign = [] then e.text.reverse else [],
        e.text.reverse ++ d :: written⟩ r := by
  have hdigits := e.isDigit_of_mem
  rw [Exponent.text, List.cons_append, spaced_exponentLetter]
  rcases e.isSign with hsign | hsign | hsign
  · have hnamed : ∀ c ∈ e.digits, c.isAlphanum = true := fun c hc =>
      isAlphanum_of_isDigit (hdigits c hc)
    rw [hsign, List.nil_append, spaced_word r hnamed (Or.inl (List.cons_ne_nil _ _)), if_pos rfl]
    simp
  · exact absurd hsign hplus
  · -- the sign ends the word, so the digits behind it are none
    obtain ⟨x, xs, hxs⟩ := List.exists_cons_of_ne_nil e.digits_ne_nil
    have hx : x.isDigit = true := hdigits x (by rw [hxs]; exact List.mem_cons_self)
    have hfirst : e.digits ++ r = x :: (xs ++ r) := by rw [hxs]; rfl
    rw [hsign, List.singleton_append, List.cons_append, hfirst, spaced_exponentMinus e hd hx,
      ← hfirst, spaced_digits r hdigits, if_neg (by simp)]
    simp

theorem spaced_unit (r : Text) : spaced ⟨levels, word, written⟩ (n.unit ++ r) =
    n.unit ++ spaced ⟨levels, if n.unit = ['%'] then [] else n.unit.reverse ++ word,
      n.unit.reverse ++ written⟩ r := by
  rcases n.isUnit with hpercent | ⟨hletters, -⟩
  · rw [hpercent, if_pos rfl, List.singleton_append, spaced_separator (by decide)]
    rfl
  · have hne : n.unit ≠ ['%'] := by
      intro hunit
      rw [hunit] at hletters
      exact absurd (hletters '%' (by simp)) (by decide)
    have hnamed : ∀ c ∈ n.unit, c.isAlphanum = true := fun c hc =>
      isAlphanum_of_isAlpha (hletters c hc)
    rw [if_neg hne, spaced_word r hnamed (Or.inr fun c hc => hletters c (List.mem_of_head? hc))]

/-- A number whose exponent has no plus sign is written as it is. -/
theorem spaced_number (hplus : n.hasPlus = false) (r : Text) : ∃ w, w.isEmpty = !n.endsInWord ∧
    spaced ⟨true :: levels, [], written⟩ (n.text ++ r) =
      n.text ++ spaced ⟨true :: levels, w, n.text.reverse ++ written⟩ r := by
  obtain ⟨m, d, hm, hd⟩ := n.exists_mantissa_concat
  have hmantissa : n.mantissa.reverse ++ written = d :: (m.reverse ++ written) := by
    rw [hm, List.reverse_append]
    rfl
  obtain ⟨w, hw, hexponent⟩ : ∃ w : Text,
      w.isEmpty = !(n.exponent.any fun e => e.sign = []) ∧
      spaced ⟨true :: levels, [], d :: (m.reverse ++ written)⟩
          (n.exponentText ++ (n.unit ++ r)) =
        n.exponentText ++ spaced ⟨true :: levels, w,
          n.exponentText.reverse ++ d :: (m.reverse ++ written)⟩ (n.unit ++ r) := by
    rw [Numeral.exponentText]
    cases he : n.exponent with
    | none => exact ⟨[], rfl, rfl⟩
    | some e =>
      have hsign : e.sign ≠ ['+'] := by
        rw [Numeral.hasPlus, he, Option.any_some] at hplus
        exact of_decide_eq_false hplus
      refine ⟨_, ?_, spaced_exponent hsign hd (n.unit ++ r)⟩
      rw [Option.any_some]
      split
      next hnone => rw [hnone, Exponent.text]; simp
      next hsome => rw [decide_eq_false hsome]; rfl
  refine ⟨if n.unit = ['%'] then [] else n.unit.reverse ++ w, ?_, ?_⟩
  · rw [Numeral.endsInWord]
    split
    next hpercent => simp [hpercent]
    next hpercent =>
      by_cases hunit : n.unit = []
      · rw [if_pos hunit, hunit, ← hw]
        rfl
      · rw [if_neg hunit, decide_eq_true hpercent]
        simp [hunit]
  · rw [Numeral.text, List.append_assoc, List.append_assoc, spaced_mantissa, hmantissa, hexponent,
      spaced_unit]
    simp [hm]

/-- A number whose exponent has a plus sign is not written as it is. -/
theorem not_prefix_spaced_number (hplus : n.hasPlus = true) (r : Text) :
    ¬n.text <+: spaced ⟨true :: levels, [], written⟩ (n.text ++ r) := by
  obtain ⟨e, he, hsign⟩ := (Option.any_eq_true _ _).mp hplus
  obtain ⟨x, xs, hxs⟩ := List.exists_cons_of_ne_nil e.digits_ne_nil
  have hx : x.isDigit = true := e.isDigit_of_mem x (by rw [hxs]; exact List.mem_cons_self)
  have htext : ∀ t, n.text ++ t =
      n.mantissa ++ (e.letter :: '+' :: x :: (xs ++ (n.unit ++ t))) := fun t => by
    rw [Numeral.text, Numeral.exponentText, he, Option.map_some, Option.getD_some, Exponent.text,
      of_decide_eq_true hsign, hxs]
    simp
  obtain ⟨v, hv⟩ := spaced_exponentPlus levels (n.mantissa.reverse ++ written) e hx
    (xs ++ (n.unit ++ r))
  rw [htext, spaced_mantissa, spaced_exponentLetter, hv, ← List.append_nil n.text, htext,
    List.prefix_append_right_inj, List.prefix_cons_inj, List.prefix_cons_iff]
  rintro (h | ⟨_, h, -⟩)
  · exact absurd h (List.cons_ne_nil _ _)
  · exact absurd (List.cons.inj h).1 (by decide)

end

/-! ## Operators -/

/-- The text ends an operand, and not with what may begin an exponent. -/
def Ended (t : Text) : Prop := ∃ m c, t = m ++ [c] ∧ Spacing.endsOperand c = true ∧
  (c = 'e' ∨ c = 'E' → ∃ m' d, m = m' ++ [d] ∧ d.isDigit = false)

theorem ended_of_ne {c : Char} (m : Text) (hc : Spacing.endsOperand c = true)
    (hlower : c ≠ 'e') (hupper : c ≠ 'E') : Ended (m ++ [c]) :=
  ⟨m, c, rfl, hc, fun he => (he.elim hlower hupper).elim⟩

theorem ended_of_isDigit {d : Char} (m : Text) (hd : d.isDigit = true) : Ended (m ++ [d]) :=
  ended_of_ne m (Spacing.endsOperand_of_isAlphanum (isAlphanum_of_isDigit hd))
    (ne_of_isDigit hd (by decide)) (ne_of_isDigit hd (by decide))

theorem ended_closing (t : Text) : Ended (t ++ [')']) :=
  ended_of_ne t (by decide) (by decide) (by decide)

theorem Ended.append {t : Text} (h : Ended t) (front : Text) : Ended (front ++ t) := by
  obtain ⟨m, c, rfl, hc, he⟩ := h
  refine ⟨front ++ m, c, (List.append_assoc ..).symm, hc, fun hletter => ?_⟩
  obtain ⟨m', d, rfl, hd⟩ := he hletter
  exact ⟨front ++ m', d, (List.append_assoc ..).symm, hd⟩

/-- The letters of a unit end an operand. -/
theorem ended_letters {u : Text} (hne : u ≠ []) (hletters : ∀ c ∈ u, c.isAlpha = true)
    (hlower : u ≠ ['e']) (hupper : u ≠ ['E']) : Ended u := by
  obtain ⟨m, c, rfl⟩ := (List.eq_nil_or_concat' u).resolve_left hne
  have hc : c.isAlpha = true := hletters c (by simp)
  refine ⟨m, c, rfl, Spacing.endsOperand_of_isAlphanum (isAlphanum_of_isAlpha hc), fun he => ?_⟩
  obtain ⟨m', d, rfl⟩ := (List.eq_nil_or_concat' m).resolve_left (by
    rintro rfl
    rcases he with rfl | rfl
    · exact hlower rfl
    · exact hupper rfl)
  exact ⟨m', d, rfl, isDigit_of_isAlpha (hletters d (by simp))⟩

theorem ended_number (n : Numeral) : Ended n.text := by
  rw [Numeral.text]
  by_cases hunit : n.unit = []
  · rw [hunit, List.append_nil, Numeral.exponentText]
    cases n.exponent with
    | none =>
      obtain ⟨m, d, hm, hd⟩ := n.exists_mantissa_concat
      rw [hm, Option.map_none, Option.getD_none, List.append_nil]
      exact ended_of_isDigit m hd
    | some e =>
      obtain ⟨ds, d, hds⟩ := (List.eq_nil_or_concat' e.digits).resolve_left e.digits_ne_nil
      have hd : d.isDigit = true := e.isDigit_of_mem d (by rw [hds]; simp)
      have htext : e.text = (e.letter :: (e.sign ++ ds)) ++ [d] := by rw [Exponent.text, hds]; simp
      rw [Option.map_some, Option.getD_some, htext]
      exact (ended_of_isDigit _ hd).append _
  · rw [← List.append_assoc]
    refine Ended.append ?_ _
    rcases n.isUnit with hpercent | ⟨hletters, hlower, hupper⟩
    · rw [hpercent]
      exact ended_of_ne [] (by decide) (by decide) (by decide)
    · exact ended_letters hunit hletters hlower hupper

theorem ended_operand (write : Operator → Text) : ∀ o : Operand, Ended (o.print write)
  | .number n => ended_number n
  | .reference r => by
    rw [Operand.print, Reference.text, ← List.cons_append, ← List.append_assoc]
    exact ended_closing _
  | .group c => by
    rw [Operand.print, ← List.cons_append]
    exact ended_closing _
  | .call f a => by
    rw [Operand.print, ← List.cons_append, ← List.append_assoc]
    exact ended_closing _

/-- The characters of a reference's function are letters, and it holds no arithmetic. -/
theorem referenceFunctions_spelled : ∀ f ∈ referenceFunctions,
    f ≠ [] ∧ (∀ c ∈ f, c.isAlpha = true) ∧ f ∉ mathFunctions := by decide

theorem mathFunctions_spelled : ∀ f ∈ mathFunctions, f ≠ [] ∧ ∀ c ∈ f, c.isAlpha = true := by decide

/-- How a printed operand begins. -/
theorem exists_head_operand (write : Operator → Text) (o : Operand) : ∃ x u,
    o.print write = x :: u ∧ Spacing.startsOperand x = true ∧ x.isAlpha = o.startsWithLetter := by
  have hletters : ∀ {f t : Text}, f ≠ [] ∧ (∀ c ∈ f, c.isAlpha = true) → ∃ x u, f ++ t = x :: u ∧
      Spacing.startsOperand x = true ∧ x.isAlpha = true := by
    rintro f t ⟨hne, hf⟩
    obtain ⟨x, u, rfl⟩ := List.exists_cons_of_ne_nil hne
    have hx := hf x List.mem_cons_self
    exact ⟨x, u ++ t, rfl, Spacing.startsOperand_of_isAlphanum (isAlphanum_of_isAlpha hx), hx⟩
  cases o with
  | number n =>
    rcases n.exists_mantissa with ⟨d, m, hm, hd⟩ | ⟨d, m, hm, -⟩
    · exact ⟨d, m ++ (n.exponentText ++ n.unit), by rw [Operand.print, Numeral.text, hm]; rfl,
        Spacing.startsOperand_of_isAlphanum (isAlphanum_of_isDigit hd), isAlpha_of_isDigit hd⟩
    · exact ⟨'.', d :: m ++ (n.exponentText ++ n.unit),
        by rw [Operand.print, Numeral.text, hm]; rfl,
        by decide, rfl⟩
  | reference r =>
    obtain ⟨hne, hf, -⟩ := referenceFunctions_spelled r.function r.isReference
    exact hletters ⟨hne, hf⟩
  | group c => exact ⟨'(', c.print write ++ [')'], rfl, by decide, rfl⟩
  | call f a => exact hletters (mathFunctions_spelled f.1 f.2)

theorem exists_head_calculation (write : Operator → Text) : ∀ c : Calculation, ∃ x u,
    c.print write = x :: u ∧ Spacing.startsOperand x = true ∧ x.isAlpha = c.startsWithLetter
  | .operand o => exists_head_operand write o
  | .binary o op c => by
    obtain ⟨x, u, hu, hx⟩ := exists_head_operand write o
    exact ⟨x, u ++ (write op ++ c.print write), by rw [Calculation.print, hu]; rfl, hx⟩

section

open Spacing

variable {levels : List Bool} {word written t : Text} {o : Operand}

theorem Ended.endsOperand (ht : Ended t) :
    (t.reverse ++ written).head?.any endsOperand = true := by
  obtain ⟨m, y, rfl, hends, -⟩ := ht
  rw [List.reverse_append]
  exact hends

theorem Ended.inExponent (ht : Ended t) (next : Option Char) :
    inExponent ⟨levels, word, t.reverse ++ written⟩ next = false := by
  obtain ⟨m, y, rfl, -, he⟩ := ht
  rw [List.reverse_append, Spacing.inExponent]
  by_cases hy : y = 'e' ∨ y = 'E'
  · obtain ⟨m', d, rfl, hd⟩ := he hy
    simp [hd]
  · rw [not_or] at hy
    cases hm : m.reverse ++ written <;> simp [hm, hy.1, hy.2]

/-- Behind an operand and in front of another one a sign stands between spaces, unless it is a minus
sign between letters. -/
theorem isBinary_operator (ht : Ended t) (hword : word.isEmpty = !o.endsInWord) {op : Operator}
    (hop : op = .plus ∨ op = .minus) (c : Calculation) (r : Text) :
    isBinary ⟨true :: levels, word, t.reverse ++ written⟩ op.char (c.print tight ++ r).head? =
      !isHyphen o op c := by
  obtain ⟨x, u, hu, hstarts, hletter⟩ := exists_head_calculation tight c
  have hmath : inMath ⟨true :: levels, word, t.reverse ++ written⟩ = true := rfl
  have hhead : (c.print tight ++ r).head? = some x := by rw [hu]; rfl
  rw [isBinary, hmath, ht.endsOperand, ht.inExponent, hhead, Option.any_some, Option.any_some,
    hstarts, hword, hletter, isHyphen]
  rcases hop with rfl | rfl <;> simp [Operator.char]

/-- An operator gets its spaces, unless it is a minus sign between letters. -/
theorem spaced_operator (ht : Ended t) (hword : word.isEmpty = !o.endsInWord) {op : Operator}
    {c : Calculation} (h : isHyphen o op c = false) (r : Text) :
    spaced ⟨true :: levels, word, t.reverse ++ written⟩ (op.char :: (c.print tight ++ r)) =
      spread op ++ spaced ⟨true :: levels, [], (spread op).reverse ++ (t.reverse ++ written)⟩
        (c.print tight ++ r) := by
  have hsum : op = .plus ∨ op = .minus → isBinary ⟨true :: levels, word, t.reverse ++ written⟩
      op.char (c.print tight ++ r).head? = true := fun hop => by
    rw [isBinary_operator ht hword hop, h]
    rfl
  cases op with
  | plus =>
    have hbinary := hsum (Or.inl rfl)
    rw [spaced, piece, hbinary, if_pos rfl, step_of_isBinary hbinary]
    rfl
  | minus =>
    have hbinary := hsum (Or.inr rfl)
    rw [spaced, piece, hbinary, if_pos rfl, step_of_isBinary hbinary]
    rfl
  | star => exact spaced_separator (by decide) _
  | slash => exact spaced_separator (by decide) _

/-- A minus sign between letters gets no spaces. -/
theorem exists_spaced_hyphen (levels : List Bool) (written : Text) (ht : Ended t)
    (hword : word.isEmpty = !o.endsInWord) {op : Operator} {c : Calculation}
    (h : isHyphen o op c = true) (r : Text) : op = .minus ∧
    ∃ u, spaced ⟨true :: levels, word, t.reverse ++ written⟩ (op.char :: (c.print tight ++ r)) =
      '-' :: u := by
  obtain rfl : op = .minus := by
    simp only [isHyphen, Bool.and_eq_true, decide_eq_true_eq] at h
    exact h.1.1
  have hbinary : isBinary ⟨true :: levels, word, t.reverse ++ written⟩ Operator.minus.char
      (c.print tight ++ r).head? = false := by
    rw [isBinary_operator ht hword (Or.inr rfl), h]
    rfl
  rw [spaced, piece, hbinary]
  exact ⟨rfl, _, rfl⟩

end

/-! ## Formulas spaced out -/

section

open Spacing

variable {levels : List Bool} {written : Text}

theorem spaced_call {f : Text} (hf : f ∈ mathFunctions) (t : Text) :
    spaced ⟨levels, [], written⟩ (f ++ '(' :: t) =
      f ++ '(' :: spaced ⟨true :: levels, [], '(' :: (f.reverse ++ written)⟩ t := by
  obtain ⟨hne, hletters⟩ := mathFunctions_spelled f hf
  rw [spaced_name hne hletters, decide_eq_true hf]

theorem spaced_group (t : Text) : spaced ⟨true :: levels, [], written⟩ ('(' :: t) =
    '(' :: spaced ⟨true :: true :: levels, [], '(' :: written⟩ t := by
  have hmath : inMath ⟨true :: levels, [], written⟩ = true := rfl
  rw [spaced_opening, hmath, List.isEmpty_nil, Bool.and_self, Bool.or_true]

/-- A reference is written as it is. -/
theorem spaced_reference (ref : Reference) (r : Text) :
    spaced ⟨levels, [], written⟩ (ref.text ++ r) =
      ref.text ++ spaced ⟨levels, [], ref.text.reverse ++ written⟩ r := by
  obtain ⟨hne, hletters, hmath⟩ := referenceFunctions_spelled _ ref.isReference
  have htext : ref.text ++ r = ref.function ++ '(' :: (ref.name ++ ')' :: r) := by
    simp [Reference.text]
  obtain ⟨w, hname⟩ := spaced_plain levels (')' :: r) []
    ('(' :: (ref.function.reverse ++ written)) ref.ne_parenthesis
  rw [htext, spaced_name hne hletters, decide_eq_false hmath, hname, spaced_closing]
  simp [Reference.text]

mutual

/-- A regular operand is spaced out inside of arithmetic. -/
theorem spaced_operand : ∀ (o : Operand) (r : Text) (levels : List Bool) (written : Text),
    o.isRegular = true → ∃ w, w.isEmpty = !o.endsInWord ∧
      spaced ⟨true :: levels, [], written⟩ (o.print tight ++ r) =
        o.print spread ++
          spaced ⟨true :: levels, w, (o.print spread).reverse ++ written⟩ r
  | .number n, r, _, _, h => spaced_number n (Bool.not_eq_true' _ ▸ h) r
  | .reference ref, r, _, _, _ => ⟨[], rfl, spaced_reference ref r⟩
  | .group c, r, levels, written, h => by
    obtain ⟨w, hc⟩ := spaced_calculation c (')' :: r) (true :: levels) ('(' :: written) h
    refine ⟨[], rfl, ?_⟩
    rw [print_group, spaced_group, hc, spaced_closing]
    simp [Operand.print]
  | .call f a, r, levels, written, h => by
    obtain ⟨w, ha⟩ := spaced_arguments a (')' :: r) (true :: levels)
      ('(' :: (f.1.reverse ++ written)) h
    refine ⟨[], rfl, ?_⟩
    rw [print_call, spaced_call f.2, ha, spaced_closing]
    simp [Operand.print]

/-- A regular calculation is spaced out inside of arithmetic. -/
theorem spaced_calculation : ∀ (c : Calculation) (r : Text) (levels : List Bool) (written : Text),
    c.isRegular = true → ∃ w, spaced ⟨true :: levels, [], written⟩ (c.print tight ++ r) =
      c.print spread ++ spaced ⟨true :: levels, w, (c.print spread).reverse ++ written⟩ r
  | .operand o, r, levels, written, h => by
    obtain ⟨w, -, ho⟩ := spaced_operand o r levels written h
    exact ⟨w, ho⟩
  | .binary o op c, r, levels, written, h => by
    simp only [Calculation.isRegular, Bool.and_eq_true, Bool.not_eq_true'] at h
    obtain ⟨⟨ho, hhyphen⟩, hc⟩ := h
    obtain ⟨w, hword, ho⟩ := spaced_operand o (op.char :: (c.print tight ++ r)) levels written ho
    obtain ⟨w', hc⟩ := spaced_calculation c r levels
      ((spread op).reverse ++ ((o.print spread).reverse ++ written)) hc
    refine ⟨w', ?_⟩
    rw [print_tight_binary, ho, spaced_operator (ended_operand spread o) hword hhyphen, hc]
    simp [Calculation.print]

/-- Regular arguments are spaced out inside of arithmetic. -/
theorem spaced_arguments : ∀ (a : Arguments) (r : Text) (levels : List Bool) (written : Text),
    a.isRegular = true → ∃ w, spaced ⟨true :: levels, [], written⟩ (a.print tight ++ r) =
      a.print spread ++ spaced ⟨true :: levels, w, (a.print spread).reverse ++ written⟩ r
  | .last c, r, levels, written, h => spaced_calculation c r levels written h
  | .more c a, r, levels, written, h => by
    simp only [Arguments.isRegular, Bool.and_eq_true] at h
    obtain ⟨w, hc⟩ := spaced_calculation c (',' :: (a.print tight ++ r)) levels written h.1
    obtain ⟨w', ha⟩ := spaced_arguments a r levels
      (',' :: ((c.print spread).reverse ++ written)) h.2
    refine ⟨w', ?_⟩
    rw [print_more, hc, spaced_separator (by decide), ha]
    simp [Arguments.print]

end

mutual

/-- An operand that is not regular is not spaced out. -/
theorem not_prefix_spaced_operand : ∀ (o : Operand) (r : Text) (levels : List Bool)
    (written : Text), o.isRegular = false →
      ¬o.print spread <+: spaced ⟨true :: levels, [], written⟩ (o.print tight ++ r)
  | .number n, r, _, _, h => not_prefix_spaced_number n (by simpa [Operand.isRegular] using h) r
  | .reference _, _, _, _, h => Bool.noConfusion h
  | .group c, r, levels, written, h => fun hprefix => by
    rw [print_group, spaced_group, Operand.print, List.prefix_cons_inj] at hprefix
    exact not_prefix_spaced_calculation c _ _ _ h ((List.prefix_append _ _).trans hprefix)
  | .call f a, r, levels, written, h => fun hprefix => by
    rw [print_call, spaced_call f.2, Operand.print, List.prefix_append_right_inj,
      List.prefix_cons_inj] at hprefix
    exact not_prefix_spaced_arguments a _ _ _ h ((List.prefix_append _ _).trans hprefix)

/-- A calculation that is not regular is not spaced out. -/
theorem not_prefix_spaced_calculation : ∀ (c : Calculation) (r : Text) (levels : List Bool)
    (written : Text), c.isRegular = false →
      ¬c.print spread <+: spaced ⟨true :: levels, [], written⟩ (c.print tight ++ r)
  | .operand o, r, levels, written, h => not_prefix_spaced_operand o r levels written h
  | .binary o op c, r, levels, written, h => fun hprefix => by
    rw [print_tight_binary, Calculation.print] at hprefix
    cases ho : o.isRegular with
    | false => exact not_prefix_spaced_operand o _ _ _ ho ((List.prefix_append _ _).trans hprefix)
    | true =>
      obtain ⟨w, hword, hspaced⟩ := spaced_operand o (op.char :: (c.print tight ++ r)) levels
        written ho
      rw [hspaced, List.prefix_append_right_inj] at hprefix
      -- up to the operator both texts are the same
      cases hhyphen : isHyphen o op c with
      | true =>
        obtain ⟨rfl, u, hu⟩ := exists_spaced_hyphen levels written (ended_operand spread o) hword
          hhyphen r
        rw [hu] at hprefix
        obtain ⟨v, hv⟩ := hprefix
        exact absurd (List.cons.inj hv).1 (by decide)
      | false =>
        rw [spaced_operator (ended_operand spread o) hword hhyphen,
          List.prefix_append_right_inj] at hprefix
        refine not_prefix_spaced_calculation c r _ _ ?_ hprefix
        simpa [Calculation.isRegular, ho, hhyphen] using h

/-- Arguments that are not regular are not spaced out. -/
theorem not_prefix_spaced_arguments : ∀ (a : Arguments) (r : Text) (levels : List Bool)
    (written : Text), a.isRegular = false →
      ¬a.print spread <+: spaced ⟨true :: levels, [], written⟩ (a.print tight ++ r)
  | .last c, r, levels, written, h => not_prefix_spaced_calculation c r levels written h
  | .more c a, r, levels, written, h => fun hprefix => by
    rw [print_more, Arguments.print] at hprefix
    cases hc : c.isRegular with
    | false =>
      exact not_prefix_spaced_calculation c _ _ _ hc ((List.prefix_append _ _).trans hprefix)
    | true =>
      obtain ⟨w, hspaced⟩ := spaced_calculation c (',' :: (a.print tight ++ r)) levels written hc
      rw [hspaced, List.prefix_append_right_inj, spaced_separator (by decide),
        List.prefix_cons_inj] at hprefix
      refine not_prefix_spaced_arguments a r _ _ ?_ hprefix
      simpa [Arguments.isRegular, hc] using h

end

end

/-- **A formula without spaces is spaced out to the same formula with a space on each side of every
sum and difference** if, and only if, no exponent in it has a plus sign and no minus sign stands
between letters. -/
theorem spaceMath_print (f : { f : Text // f ∈ mathFunctions }) (a : Arguments) :
    spaceMath ((Operand.call f a).print tight) = (Operand.call f a).print spread ↔
      a.isRegular = true := by
  have hcall : (mathFunctions.any fun f' =>
      Text.includes ((Operand.call f a).print tight) (f' ++ ['('])) = true :=
    List.any_eq_true.mpr ⟨f.1, f.2, Text.includes_iff.mpr
      ⟨[], a.print tight ++ [')'], by simp [Operand.print]⟩⟩
  rw [spaceMath_eq, if_pos hcall, Operand.print, Operand.print, spaced_call f.2,
    List.append_cancel_left_eq, List.cons_inj_right]
  constructor
  · intro heq
    by_contra h
    rw [Bool.not_eq_true] at h
    exact not_prefix_spaced_arguments a [')'] _ _ h (heq ▸ List.prefix_append _ _)
  · intro h
    obtain ⟨w, ha⟩ := spaced_arguments a [')'] [] ('(' :: (f.1.reverse ++ [])) h
    rw [ha, Spacing.spaced_closing]
    rfl

/-- A minus sign between a unit and the name of a reference stays without spaces, and the plus sign
of an exponent gets them. -/
theorem spaceMath_print_irregular :
    (∃ f a, (Operand.call f a).print tight = "calc(1px-var(--a))" ∧
      (Operand.call f a).print spread = "calc(1px - var(--a))" ∧
      spaceMath "calc(1px-var(--a))" = "calc(1px-var(--a))") ∧
    ∃ f a, (Operand.call f a).print tight = "calc(1e+2px+1px)" ∧
      (Operand.call f a).print spread = "calc(1e+2px + 1px)" ∧
      spaceMath "calc(1e+2px+1px)" = "calc(1e + 2px + 1px)" := by
  let pixel : Numeral :=
    ⟨['1'], [], none, ['p', 'x'], by decide, by decide, by decide, by decide⟩
  let hundred : Numeral :=
    ⟨['1'], [], some ⟨'e', ['+'], ['2'], by decide, by decide, by decide, by decide⟩, ['p', 'x'],
      by decide, by decide, by decide, by decide⟩
  let reference : Reference := ⟨"var", "--a", by decide, by decide⟩
  let difference := Calculation.binary (.number pixel) .minus (.operand (.reference reference))
  let sum := Calculation.binary (.number hundred) .plus (.operand (.number pixel))
  exact ⟨⟨⟨"calc", by decide⟩, .last difference, by decide, by decide, by decide⟩,
    ⟨⟨"calc", by decide⟩, .last sum, by decide, by decide, by decide⟩⟩

end Value
end UtilityCss
