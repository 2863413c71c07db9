import Mathlib.Data.List.Infix
import UtilityCss.Proofs.Bytewise.Unit
import UtilityCss.Proofs.Value.Apart
import UtilityCss.Proofs.Value.Numeral

/-!
# The first number of arithmetic

Arithmetic is measured by its leftmost number that stands outside of references.  The search passes
over the names of functions as words, over references by the depth of their parenthesis, and over
all else character by character, up to a digit, or a point in front of one, that is not behind a
letter or a hyphen (`firstUnitFrom_arithmetic`).

A hyphen may be a minus sign as well.  Behind one the search passes over the first character of a
number and takes what is left for the number, which has the same unit, unless the digits of the
number are a single one.  Then nothing is left of it, and the search goes on behind it.
-/

namespace UtilityCss
namespace Value

open Bytewise (joinsWord isWordOctet firstUnitFrom_cons firstUnitFrom_append)

/-! ## Arithmetic -/

/-- The text consists of blanks. -/
def Blanks (b : Text) : Prop := ∀ c ∈ b, Text.isBlank c = true

instance (b : Text) : Decidable (Blanks b) := inferInstanceAs (Decidable (∀ c ∈ b, _))

/-- The parentheses of the text come in pairs. -/
def Balanced (a : Text) : Prop :=
  (∀ p, p <+: a → p.count ')' ≤ p.count '(') ∧ a.count ')' = a.count '('

instance (a : Text) : Decidable (Balanced a) :=
  decidable_of_iff ((∀ p ∈ a.inits, p.count ')' ≤ p.count '(') ∧ a.count ')' = a.count '(')
    (and_congr_left' (by simp only [List.mem_inits]))

/-- The name of a function whose arguments are arithmetic. -/
structure IsCallName (name : Text) : Prop where
  head : ∀ c ∈ name.head?, c.isAlpha = true
  isWordOctet_of_mem : ∀ c ∈ name, isWordOctet c = true
  not_reference : name ∉ referenceFunctions

theorem isCallName_calc : IsCallName "calc" where
  head := fun c hc => by
    rw [← Option.some.inj hc]
    decide
  isWordOctet_of_mem := by decide
  not_reference := by decide

/-- The leftmost number of a text with what is in front of it, when more is put in front. -/
def behind (front : Text) (lead : Option (Text × Numeral)) : Option (Text × Numeral) :=
  lead.map fun m => (front ++ m.1, m.2)

/-- What the leftmost number measures, if there is one. -/
def leadClass (lead : Option (Text × Numeral)) : Option UnitClass :=
  lead.map fun m => m.2.unitClass

/-- The text is arithmetic, with any blanks around operators and inside of parentheses, and `lead`
is its leftmost number outside of references with the text in front of it.  A comma may stand
where an operator may. -/
inductive Arithmetic : Text → Option (Text × Numeral) → Prop where
  | numeral {sign : Text} (n : Numeral) : sign = [] ∨ sign = ['+'] ∨ sign = ['-'] →
    Arithmetic (sign ++ n.text) (some (sign, n))
  | reference {name a : Text} : name ∈ referenceFunctions → Balanced a →
    Arithmetic (name ++ '(' :: (a ++ [')'])) none
  /-- A call, or a pair of parentheses without a name. -/
  | call {name b t b' : Text} {lead : Option (Text × Numeral)} : IsCallName name → Blanks b →
    Arithmetic t lead → Blanks b' →
    Arithmetic (name ++ '(' :: (b ++ (t ++ (b' ++ [')'])))) (behind (name ++ '(' :: b) lead)
  | join {l b b' r : Text} {op : Char} {lead lead' : Option (Text × Numeral)} : Arithmetic l lead →
    Blanks b → op ∈ ['+', '-', '*', '/', ','] → Blanks b' → Arithmetic r lead' →
    Arithmetic (l ++ (b ++ op :: (b' ++ r))) (lead.or (behind (l ++ (b ++ op :: b')) lead'))

/-- The number is no single digit right behind a minus sign. -/
def Visible (before : Option Char) (n : Numeral) : Prop := before = some '-' → 1 < n.mantissa.length

instance (before : Option Char) (n : Numeral) : Decidable (Visible before n) :=
  inferInstanceAs (Decidable (_ → _))

/-! ## Names and blanks -/

theorem any_joinsWord_eq_false {before : Option Char} (h : ∀ b ∈ before, b.isAlpha = false)
    (hminus : before ≠ some '-') : before.any joinsWord = false := by
  cases before with
  | none => rfl
  | some b =>
    have hb : b ≠ '-' := fun heq => hminus (congrArg some heq)
    rw [Option.any_some, joinsWord, h b rfl, decide_eq_false hb]
    rfl

/-- Behind a name the parenthesis is that of a reference or of a call. -/
theorem firstUnitFrom_name {name : Text} (hhead : ∀ c ∈ name.head?, c.isAlpha = true)
    (hname : ∀ c ∈ name, isWordOctet c = true) (depth : Nat) (before : Option Char) (r : Text) :
    firstUnitFrom 0 depth before [] (name ++ '(' :: r) =
      firstUnitFrom (if name ∈ referenceFunctions then depth + 1 else 0) (depth + 1) (some '(') []
        r := by
  cases name with
  | nil =>
    rw [List.nil_append, firstUnitFrom_cons, if_pos rfl, if_neg (by decide)]
  | cons c u =>
    have hc : c.isAlpha = true := hhead c rfl
    have hu := (List.forall_mem_cons.mp hname).2
    have hword : firstUnitFrom 0 depth [c].getLast? [c] (u ++ '(' :: r) =
        firstUnitFrom 0 depth ([c] ++ u).getLast? (u.reverse ++ [c]) ('(' :: r) :=
      firstUnitFrom_append (List.cons_ne_nil c []) hu
    rw [List.cons_append, firstUnitFrom_cons, if_neg (ne_of_isAlpha hc (by decide)),
      if_neg (ne_of_isAlpha hc (by decide)), hc, if_pos (by rfl)]
    show firstUnitFrom 0 depth [c].getLast? [c] (u ++ '(' :: r) = _
    rw [hword, firstUnitFrom, if_neg (by simp), if_pos rfl, List.reverse_append,
      List.reverse_reverse]
    rfl

/-- Does the search pass over the character without a thought? -/
def isIdle (c : Char) : Bool :=
  c != '(' && c != ')' && !c.isAlpha && !c.isDigit && c != '.'

theorem isIdle_iff {c : Char} : isIdle c = true ↔
    c ≠ '(' ∧ c ≠ ')' ∧ c.isAlpha = false ∧ c.isDigit = false ∧ c ≠ '.' := by
  simp [isIdle, and_assoc]

theorem firstUnitFrom_idle {depth : Nat} {r : Text} : ∀ {p : Text} {before : Option Char},
    (∀ c ∈ p, isIdle c = true) → firstUnitFrom 0 depth before [] (p ++ r) =
      firstUnitFrom 0 depth (p.getLast?.or before) [] r
  | [], before, _ => rfl
  | c :: p, before, h => by
    obtain ⟨hc, hp⟩ := List.forall_mem_cons.mp h
    obtain ⟨hopen, hclose, halpha, hdigit, hpoint⟩ := isIdle_iff.mp hc
    have hstarts : startsNumber c (p ++ r) = false := by
      rw [startsNumber, hdigit, decide_eq_false hpoint]
      rfl
    have hlast : (c :: p).getLast?.or before = p.getLast?.or (some c) := by
      rw [← List.singleton_append, List.getLast?_append, Option.or_assoc]
      rfl
    rw [List.cons_append, firstUnitFrom_cons, if_neg hopen, if_neg hclose, halpha, Bool.and_false,
      if_neg Bool.false_ne_true, hstarts, Bool.and_false, Bool.false_and,
      if_neg Bool.false_ne_true, firstUnitFrom_idle hp, hlast]

theorem isIdle_of_isBlank {c : Char} (h : Text.isBlank c = true) : isIdle c = true := by
  have ne : ∀ x, Text.isBlank x = false → c ≠ x := by
    rintro x hx rfl
    exact Bool.noConfusion (hx.symm.trans h)
  have hnamed : c.isAlphanum = false := by
    by_contra hc
    rw [Bool.not_eq_false] at hc
    have hblank := Bracketed.isBlank_of_isNamed (c := c) (by rw [Bracketed.isNamed, hc]; rfl)
    exact Bool.noConfusion (hblank.symm.trans h)
  obtain ⟨halpha, hdigit⟩ := isAlphanum_eq_false_iff.mp hnamed
  exact isIdle_iff.mpr ⟨ne _ (by decide), ne _ (by decide), halpha, hdigit, ne _ (by decide)⟩

theorem isIdle_of_operator {op : Char} (h : op ∈ ['+', '-', '*', '/', ',']) : isIdle op = true := by
  revert op
  decide

theorem endsNumber_operator {op : Char} (h : op ∈ ['+', '-', '*', '/', ',']) :
    op.isAlphanum = false ∧ op ≠ '.' ∧ op ≠ '%' := by
  revert op
  decide

/-- What is put between two terms. -/
theorem isIdle_between {b b' : Text} {op : Char} (hb : Blanks b)
    (hop : op ∈ ['+', '-', '*', '/', ',']) (hb' : Blanks b') :
    ∀ c ∈ b ++ op :: b', isIdle c = true := by
  intro c hc
  rcases List.mem_append.mp hc with hc | hc
  · exact isIdle_of_isBlank (hb c hc)
  · rcases List.mem_cons.mp hc with rfl | hc
    · exact isIdle_of_operator hop
    · exact isIdle_of_isBlank (hb' c hc)

theorem EndsNumber.blanks {b r : Text} (hb : Blanks b) (hr : EndsNumber r) :
    EndsNumber (b ++ r) := by
  intro c hc
  cases b with
  | nil => exact hr c hc
  | cons x b =>
    obtain rfl : x = c := Option.some.inj hc
    have hx := hb x List.mem_cons_self
    obtain ⟨-, -, halpha, hdigit, hpoint⟩ := isIdle_iff.mp (isIdle_of_isBlank hx)
    refine ⟨isAlphanum_eq_false_iff.mpr ⟨halpha, hdigit⟩, hpoint, ?_⟩
    rintro rfl
    exact absurd hx (by decide)

theorem EndsNumber.cons {c : Char} (h : c.isAlphanum = false ∧ c ≠ '.' ∧ c ≠ '%') (r : Text) :
    EndsNumber (c :: r) := by
  intro x hx
  rwa [← Option.some.inj hx]

/-! ## References -/

/-- Inside of a reference the search only counts parentheses. -/
theorem firstUnitFrom_inReference {reference : Nat} (hreference : reference ≠ 0) {r : Text} :
    ∀ {a : Text} {e e' : Nat} {before : Option Char},
      (∀ p, p <+: a → p.count ')' ≤ e + p.count '(') → e + a.count '(' = a.count ')' + e' →
      ∃ before', firstUnitFrom reference (reference + e) before [] (a ++ r) =
        firstUnitFrom reference (reference + e') before' [] r
  | [], e, e', before, _, he => by
    obtain rfl : e = e' := by simpa using he
    exact ⟨before, rfl⟩
  | c :: a, e, e', before, hprefix, he => by
    rw [List.cons_append, firstUnitFrom_cons]
    have hrest : ∀ p, p <+: a → (c :: p).count ')' ≤ e + (c :: p).count '(' := fun p hp =>
      hprefix (c :: p) ((List.prefix_cons_inj c).mpr hp)
    split
    next hopen =>
      subst hopen
      refine firstUnitFrom_inReference hreference (e := e + 1) (fun p hp => ?_) ?_
      · have := hrest p hp
        simp at this
        omega
      · simp at he
        omega
    split
    next hclose =>
      subst hclose
      have hopen : 1 ≤ e := by
        have := hrest [] (List.nil_prefix ..)
        simpa using this
      have hdepth : reference + e - 1 = reference + (e - 1) := by omega
      rw [if_neg (by omega), hdepth]
      refine firstUnitFrom_inReference hreference (fun p hp => ?_) ?_
      · have := hrest p hp
        simp at this
        omega
      · simp at he
        omega
    next hopen hclose =>
    have hcount : ∀ x : Char, x = '(' ∨ x = ')' → ∀ p : Text, (c :: p).count x = p.count x := by
      rintro x (rfl | rfl) p
      · exact List.count_cons_of_ne hopen
      · exact List.count_cons_of_ne hclose
    rw [decide_eq_false hreference, Bool.false_and, Bool.false_and, if_neg Bool.false_ne_true,
      Bool.false_and, if_neg Bool.false_ne_true]
    refine firstUnitFrom_inReference hreference (fun p hp => ?_) ?_
    · have := hrest p hp
      rwa [hcount _ (Or.inl rfl), hcount _ (Or.inr rfl)] at this
    · rwa [hcount _ (Or.inl rfl), hcount _ (Or.inr rfl)] at he

/-- The search passes over a reference. -/
theorem firstUnitFrom_reference {name a : Text} (hname : name ∈ referenceFunctions)
    (ha : Balanced a) (depth : Nat) (before : Option Char) (r : Text) :
    firstUnitFrom 0 depth before [] (name ++ '(' :: (a ++ ')' :: r)) =
      firstUnitFrom 0 depth (some ')') [] r := by
  have hspelled : ∀ name ∈ referenceFunctions,
      ∀ c ∈ name, c.isAlpha = true ∧ isWordOctet c = true := by decide
  have hhead : ∀ c ∈ name.head?, c.isAlpha = true := fun c hc =>
    (hspelled name hname c (List.mem_of_head? hc)).1
  have hchars : ∀ c ∈ name, isWordOctet c = true := fun c hc => (hspelled name hname c hc).2
  obtain ⟨before', hinside⟩ : ∃ before',
      firstUnitFrom (depth + 1) (depth + 1 + 0) (some '(') [] (a ++ ')' :: r) =
        firstUnitFrom (depth + 1) (depth + 1 + 0) before' [] (')' :: r) :=
    firstUnitFrom_inReference (by omega) (fun p hp => by rw [Nat.zero_add]; exact ha.1 p hp)
      (by rw [Nat.zero_add, ha.2, Nat.add_zero])
  rw [firstUnitFrom_name hhead hchars, if_pos hname, hinside, firstUnitFrom_cons,
    if_neg (by decide), if_pos rfl]
  simp

/-! ## Numbers -/

section

variable {n : Numeral} {depth : Nat} {before : Option Char} {r : Text}

/-- A number that is not behind a letter or a hyphen is found. -/
theorem firstUnitFrom_numeral (hr : EndsNumber r) (hbefore : before.any joinsWord = false) :
    firstUnitFrom 0 depth before [] (n.text ++ r) = some n.unitClass := by
  obtain ⟨c, t, ht, hc, hstarts⟩ : ∃ c t, n.text ++ r = c :: t ∧
      (c ≠ '(' ∧ c ≠ ')' ∧ c.isAlpha = false) ∧ startsNumber c t = true := by
    rcases n.exists_mantissa with ⟨d, m, hm, hd⟩ | ⟨d, m, hm, hd⟩
    · refine ⟨d, m ++ (n.exponentText ++ n.unit) ++ r, by rw [Numeral.text, hm]; simp,
        ⟨ne_of_isDigit hd (by decide), ne_of_isDigit hd (by decide), isAlpha_of_isDigit hd⟩, ?_⟩
      rw [startsNumber, hd, Bool.true_or]
    · refine ⟨'.', d :: (m ++ (n.exponentText ++ n.unit) ++ r), by rw [Numeral.text, hm]; simp,
        by decide, ?_⟩
      simpa [startsNumber, Text.startsWithChar] using hd
  have hread : number? (c :: t) = some (n.mantissa ++ n.exponentText, n.unit ++ r) := by
    rw [← ht, Numeral.number?_text hr]
  rw [ht, firstUnitFrom_cons, if_neg hc.1, if_neg hc.2.1, hc.2.2, Bool.and_false,
    if_neg Bool.false_ne_true, hstarts, hbefore, if_pos (by rfl), hread]
  dsimp only
  rw [Numeral.unitAt_unit hr, Numeral.unitClass]

/-- Without its first character a number of more than one digit is a number with the same unit. -/
theorem Numeral.exists_tail (h : 1 < n.mantissa.length) : ∃ (c : Char) (n' : Numeral),
    n.text = c :: n'.text ∧ n'.unit = n.unit ∧ (c.isDigit = true ∨ c = '.') := by
  rcases hwhole : n.whole with _ | ⟨d, m⟩
  · have hplaces := n.digits_ne_nil.resolve_left (not_not_intro hwhole)
    refine ⟨'.', ⟨n.places, [], n.exponent, n.unit, n.isDigit_of_mem_places, by simp,
      Or.inl hplaces, n.isUnit⟩, ?_, rfl, Or.inr rfl⟩
    simp [Numeral.text, Numeral.mantissa, Numeral.exponentText, hwhole, hplaces]
  · have hdigits := n.isDigit_of_mem_whole
    rw [hwhole] at hdigits
    obtain ⟨hd, hm⟩ := List.forall_mem_cons.mp hdigits
    have hne : m ≠ [] ∨ n.places ≠ [] := by
      by_contra hnone
      rw [not_or, not_not, not_not] at hnone
      rw [Numeral.mantissa, hwhole, hnone.1, if_pos hnone.2] at h
      simp at h
    refine ⟨d, ⟨m, n.places, n.exponent, n.unit, hm, n.isDigit_of_mem_places, hne, n.isUnit⟩, ?_,
      rfl, Or.inl hd⟩
    simp [Numeral.text, Numeral.mantissa, Numeral.exponentText, hwhole]

/-- Behind a minus sign the number is found by its second character. -/
theorem firstUnitFrom_visible (hr : EndsNumber r) (hbefore : ∀ b ∈ before, b.isAlpha = false)
    (hvisible : Visible before n) :
    firstUnitFrom 0 depth before [] (n.text ++ r) = some n.unitClass := by
  by_cases hminus : before = some '-'
  · obtain ⟨c, n', htext, hunit, hc⟩ := n.exists_tail (hvisible hminus)
    have hjoins : before.any joinsWord = true := by rw [hminus]; rfl
    have hfirst : c ≠ '(' ∧ c ≠ ')' ∧ c.isAlpha = false ∧ joinsWord c = false := by
      rcases hc with hdigit | rfl
      · refine ⟨ne_of_isDigit hdigit (by decide), ne_of_isDigit hdigit (by decide),
          isAlpha_of_isDigit hdigit, ?_⟩
        have hhyphen : c ≠ '-' := ne_of_isDigit hdigit (by decide)
        rw [joinsWord, isAlpha_of_isDigit hdigit, decide_eq_false hhyphen]
        rfl
      · decide
    obtain ⟨hopen, hclose, halpha, hjoin⟩ := hfirst
    have htail : firstUnitFrom 0 depth (some c) [] (n'.text ++ r) = some n'.unitClass :=
      firstUnitFrom_numeral hr hjoin
    rw [htext, List.cons_append, firstUnitFrom_cons, if_neg hopen, if_neg hclose, halpha,
      Bool.and_false, if_neg Bool.false_ne_true, hjoins, Bool.not_true, Bool.and_false,
      if_neg Bool.false_ne_true, htail, Numeral.unitClass, hunit, Numeral.unitClass]
  · exact firstUnitFrom_numeral hr (any_joinsWord_eq_false hbefore hminus)

end

/-! ## The search -/

theorem getLast?_behind (front f : Text) (before : Option Char) :
    (front ++ f).getLast?.or before = f.getLast?.or (front.getLast?.or before) := by
  rw [List.getLast?_append, Option.or_assoc]

/-- Behind idle characters there is no letter if there was none in front of them. -/
theorem not_isAlpha_behind {u : Text} {before : Option Char} (hu : ∀ c ∈ u, isIdle c = true)
    (hbefore : ∀ b ∈ before, b.isAlpha = false) : ∀ b ∈ u.getLast?.or before, b.isAlpha = false := by
  intro b hb
  rcases Option.or_eq_some_iff.mp hb with hb | ⟨-, hb⟩
  · exact (isIdle_iff.mp (hu b (List.mem_of_getLast? hb))).2.2.1
  · exact hbefore b hb

/-- Behind the opening parenthesis of a call and the blanks in it. -/
theorem firstUnitFrom_call {name b : Text} (hname : IsCallName name) (hb : Blanks b) (depth : Nat)
    (before : Option Char) (r : Text) :
    firstUnitFrom 0 depth before [] (name ++ '(' :: (b ++ r)) =
      firstUnitFrom 0 (depth + 1) (b.getLast?.or (some '(')) [] r := by
  rw [firstUnitFrom_name hname.head hname.isWordOctet_of_mem, if_neg hname.not_reference,
    firstUnitFrom_idle fun c hc => isIdle_of_isBlank (hb c hc)]

/-- Behind the blanks in front of the closing parenthesis of a call. -/
theorem firstUnitFrom_closing {b : Text} (hb : Blanks b) (depth : Nat) (before : Option Char)
    (r : Text) : firstUnitFrom 0 (depth + 1) before [] (b ++ ')' :: r) =
      firstUnitFrom 0 depth (some ')') [] r := by
  rw [firstUnitFrom_idle fun c hc => isIdle_of_isBlank (hb c hc), firstUnitFrom_cons,
    if_neg (by decide), if_pos rfl, ite_self]
  rfl

/-- The search finds the leftmost number outside of references, and gets over arithmetic without
one. -/
theorem firstUnitFrom_arithmetic {t : Text} {lead : Option (Text × Numeral)}
    (h : Arithmetic t lead) : ∀ {depth : Nat} {before : Option Char} {r : Text},
      (∀ b ∈ before, b.isAlpha = false) → EndsNumber r →
      (∀ m ∈ lead, Visible (m.1.getLast?.or before) m.2) →
      firstUnitFrom 0 depth before [] (t ++ r) =
        (leadClass lead).or (firstUnitFrom 0 depth (some ')') [] r) := by
  induction h with
  | @numeral sign n hsign =>
    intro depth before r hbefore hr hvisible
    have hidle : ∀ c ∈ sign, isIdle c = true := by rcases hsign with rfl | rfl | rfl <;> decide
    rw [List.append_assoc, firstUnitFrom_idle hidle,
      firstUnitFrom_visible hr (not_isAlpha_behind hidle hbefore) (hvisible _ rfl)]
    rfl
  | @reference name a hname ha =>
    intro depth before r _ _ _
    have htext : name ++ '(' :: (a ++ [')']) ++ r = name ++ '(' :: (a ++ ')' :: r) := by simp
    rw [htext, firstUnitFrom_reference hname ha]
    rfl
  | @call name b t b' lead hname hb _ hb' ih =>
    intro depth before r hbefore hr hvisible
    have htext : name ++ '(' :: (b ++ (t ++ (b' ++ [')']))) ++ r =
        name ++ '(' :: (b ++ (t ++ (b' ++ ')' :: r))) := by simp
    have hlast : (name ++ '(' :: b).getLast?.or before = b.getLast?.or (some '(') := by
      rw [show name ++ '(' :: b = (name ++ ['(']) ++ b by simp, getLast?_behind,
        List.getLast?_concat]
      rfl
    have hbehind : ∀ x ∈ b.getLast?.or (some '('), x.isAlpha = false :=
      not_isAlpha_behind (fun c hc => isIdle_of_isBlank (hb c hc)) (by simp)
    have hend : EndsNumber (b' ++ ')' :: r) := .blanks hb' (.cons (by decide) r)
    have hinside : ∀ m ∈ lead, Visible (m.1.getLast?.or (b.getLast?.or (some '('))) m.2 := by
      intro m hm
      have hv := hvisible _ (Option.map_eq_some_iff.mpr ⟨m, hm, rfl⟩)
      rwa [getLast?_behind, hlast] at hv
    rw [htext, firstUnitFrom_call hname hb, ih hbehind hend hinside]
    cases lead with
    | some m => rfl
    | none => exact firstUnitFrom_closing hb' depth (some ')') r
  | @join l b b' rt op lead lead' _ hb hop hb' _ ihl ihr =>
    intro depth before r hbefore hr hvisible
    have htext : l ++ (b ++ op :: (b' ++ rt)) ++ r = l ++ ((b ++ op :: b') ++ (rt ++ r)) := by simp
    have hidle := isIdle_between hb hop hb'
    have hend : EndsNumber ((b ++ op :: b') ++ (rt ++ r)) := by
      rw [List.append_assoc]
      exact .blanks hb (.cons (endsNumber_operator hop) _)
    rw [htext, ihl hbefore hend fun m hm => hvisible m (by rw [hm]; rfl)]
    cases lead with
    | some m => rfl
    | none =>
      have hbetween : b ++ op :: b' ≠ [] := by simp
      have hlast : ∀ x : Option Char, (b ++ op :: b').getLast?.or x =
          some ((b ++ op :: b').getLast hbetween) := fun x => by
        rw [List.getLast?_eq_some_getLast hbetween]
        rfl
      have hbehind : ∀ x ∈ (b ++ op :: b').getLast?.or (some ')'), x.isAlpha = false :=
        not_isAlpha_behind hidle (by simp)
      show firstUnitFrom 0 depth (some ')') [] ((b ++ op :: b') ++ (rt ++ r)) = _
      rw [firstUnitFrom_idle hidle, ihr hbehind hr ?_]
      · cases lead' <;> rfl
      · intro m hm
        have hv := hvisible _ (Option.map_eq_some_iff.mpr ⟨m, hm, rfl⟩)
        rwa [getLast?_behind, List.getLast?_append, Option.or_assoc, hlast,
          ← hlast (some ')')] at hv

/-! ## Kinds of arithmetic -/

/-- Arithmetic is no dimension. -/
theorem dimension?_of_isMathFunction {t : Text} (h : isMathFunction t = true) :
    dimension? t = none := by
  by_contra hdimension
  obtain ⟨⟨c, u, rfl, hc⟩, -⟩ := dimension?_spec hdimension
  obtain ⟨name, hname, v, heq⟩ := isMathFunction_spec h
  have hlower := (IsLowerWord.mathFunctions name hname).head heq.symm
  have hdigit := (toLower_of_startsDimension hc).1
  rw [toLower_eq_self (isUpper_of_isLower hlower)] at hdigit
  exact Bool.noConfusion (hdigit.symm.trans hlower)

/-- The kinds that measure a value look at the first number of arithmetic only. -/
theorem Kind.accepts_of_isMathFunction {v : Text} (h : isMathFunction (Text.trim v) = true) :
    (number.accepts v false = true ↔ firstUnit? (Text.trim v) = some .unitless) ∧
      (percentage.accepts v false = true ↔ firstUnit? (Text.trim v) = some .percentage) ∧
      (angle.accepts v false = true ↔ firstUnit? (Text.trim v) = some .angle) ∧
      (length.accepts v false = true ↔
        firstUnit? (Text.trim v) = some .length ∨ firstUnit? (Text.trim v) = none) := by
  have hne : Text.trim v ≠ [] := by
    obtain ⟨name, -, u, hu⟩ := isMathFunction_spec h
    rw [hu]
    exact List.append_ne_nil_of_right_ne_nil name (List.cons_ne_nil '(' u)
  have hdimension := dimension?_of_isMathFunction h
  simp only [accepts_iff, ne_eq, hne, not_false_eq_true, true_and]
  simp [fits, isMathOf, isLength, isPercentage, dimensionClass?, isZero, hdimension, h]

/-- **Arithmetic is measured by its leftmost number outside of references**, unless that is a single
digit right behind a minus sign, and the kinds of values take a call of a function of arithmetic
for what that number measures; without one it passes for a length. -/
theorem firstUnit_leftmost {t : Text} {lead : Option (Text × Numeral)} (h : Arithmetic t lead)
    (hvisible : ∀ m ∈ lead, Visible m.1.getLast? m.2) :
    firstUnit? t = leadClass lead ∧
      ∀ v, Text.trim v = t → isMathFunction t = true →
        (Kind.number.accepts v false = true ↔ leadClass lead = some .unitless) ∧
          (Kind.percentage.accepts v false = true ↔ leadClass lead = some .percentage) ∧
          (Kind.angle.accepts v false = true ↔ leadClass lead = some .angle) ∧
          (Kind.length.accepts v false = true ↔ leadClass lead = some .length ∨ lead = none) := by
  have hfirst : firstUnit? t = leadClass lead := by
    rw [firstUnit?, ← List.append_nil t, firstUnitFrom_arithmetic h (by simp) (by simp [EndsNumber])
      (by simpa using hvisible)]
    cases lead <;> rfl
  refine ⟨hfirst, ?_⟩
  rintro v rfl hmath
  have hkinds := Kind.accepts_of_isMathFunction hmath
  have hnone : leadClass lead = none ↔ lead = none := Option.map_eq_none_iff
  rwa [hfirst, hnone] at hkinds

theorem firstUnit_leftmost_reference : ∃ n : Numeral, n.text = "10px" ∧ n.unitClass = .length ∧
    Arithmetic "calc( var(--x-1, (5%)) * -10px)" (some ("calc( var(--x-1, (5%)) * -", n)) ∧
    firstUnit? "calc( var(--x-1, (5%)) * -10px)" = some .length ∧
    Kind.length.accepts "calc( var(--x-1, (5%)) * -10px)" false = true := by
  let n : Numeral := ⟨['1', '0'], [], none, ['p', 'x'], by decide, by decide, by decide, by decide⟩
  have hreference : Arithmetic "var(--x-1, (5%))" none :=
    @Arithmetic.reference "var" "--x-1, (5%)" (by decide) (by decide)
  have hnumber : Arithmetic "-10px" (some (['-'], n)) := @Arithmetic.numeral ['-'] n (by decide)
  have hproduct : Arithmetic "var(--x-1, (5%)) * -10px" (some ("var(--x-1, (5%)) * -", n)) :=
    @Arithmetic.join _ [' '] [' '] _ '*' _ _ hreference (by decide) (by decide) (by decide) hnumber
  have hcall : Arithmetic "calc( var(--x-1, (5%)) * -10px)"
      (some ("calc( var(--x-1, (5%)) * -", n)) :=
    @Arithmetic.call "calc" [' '] _ [] _ isCallName_calc (by decide) hproduct (by decide)
  have hfirst := firstUnit_leftmost hcall (by
    rintro m ⟨⟩
    decide)
  exact ⟨n, by decide, by decide, hcall, hfirst.1,
    (hfirst.2 _ (by decide) (by decide)).2.2.2.mpr (Or.inl (by decide))⟩

/-- A single digit right behind a minus sign is passed over with the unit behind it. -/
theorem firstUnit_leftmost_digit : ∃ n : Numeral, n.text = "1px" ∧ n.unitClass = .length ∧
    Arithmetic "calc(-1px + 50%)" (some ("calc(-", n)) ∧
    firstUnit? "calc(-1px + 50%)" = some .percentage ∧
    Kind.length.accepts "calc(-1px + 50%)" false = false ∧
    Kind.percentage.accepts "calc(-1px + 50%)" false = true := by
  let n : Numeral := ⟨['1'], [], none, ['p', 'x'], by decide, by decide, by decide, by decide⟩
  let half : Numeral := ⟨['5', '0'], [], none, ['%'], by decide, by decide, by decide, by decide⟩
  have hpixel : Arithmetic "-1px" (some (['-'], n)) := @Arithmetic.numeral ['-'] n (by decide)
  have hhalf : Arithmetic "50%" (some ([], half)) := @Arithmetic.numeral [] half (by decide)
  have hsum : Arithmetic "-1px + 50%" (some (['-'], n)) :=
    @Arithmetic.join _ [' '] [' '] _ '+' _ _ hpixel (by decide) (by decide) (by decide) hhalf
  have hcall : Arithmetic "calc(-1px + 50%)" (some ("calc(-", n)) :=
    @Arithmetic.call "calc" [] _ [] _ isCallName_calc (by decide) hsum (by decide)
  exact ⟨n, by decide, by decide, hcall, by decide, by decide, by decide⟩

end Value
end UtilityCss
