import UtilityCss.Proofs.Brackets

/-!
# Writing a source in another way

A source may be written in another way, character by character, without the scanner of brackets
noticing: as its octets, or with underscores for its blanks.  What means something to the scanner
has to be written as it is, and over what is written for any other character the scanner has to
get whatever it is inside of (`Unnoticed`).

Then the two scans stop at the same bracket, each counting the characters that it has before it
(`Unnoticed.reach`).  Where the characters of a step mean something both scanners take the same
step (`Step.transfer`), and over all others the scanner stays where it is (`Step.of_isInert`).
-/

namespace UtilityCss
namespace Brackets

variable {mode : Mode} {depth : Nat} {url : Option Nat}

/-! ## What the scanner overlooks -/

/-- What the scanner takes for quotes are quotes. -/
inductive Mode.Proper : Mode → Prop where
  | code : Proper .code
  | quoted {quote : Char} : isQuote quote = true → Proper (.quoted quote)
  | lineComment : Proper .lineComment
  | blockComment : Proper .blockComment

theorem Mode.Proper.ite {p : Prop} [Decidable p] {m m' : Mode} (h : m.Proper) (h' : m'.Proper) :
    (if p then m else m').Proper := by
  split
  · exact h
  · exact h'

/-- Characters that mean nothing to the scanner, whatever it is inside of. -/
def isInert (c : Char) : Bool := isPlain c && c != '/' && c != '*' && c != '\n'

theorem isInert_iff {c : Char} :
    isInert c = true ↔ isPlain c = true ∧ c ≠ '/' ∧ c ≠ '*' ∧ c ≠ '\n' := by
  simp [isInert, and_assoc]

/-- Whatever the scanner is inside of, it gets over the text and is still inside of that. -/
def Overlooked (p : Text) : Prop :=
  ∀ (mode : Mode) (depth : Nat) (url : Option Nat) (before r : Text), mode.Proper →
    reach mode depth url before (p ++ r) =
      (reach mode depth url (p.reverse ++ before) r).map (· + p.length)

theorem Overlooked.reach {p : Text} (h : Overlooked p) (hmode : mode.Proper) (before r : Text) :
    Brackets.reach mode depth url before (p ++ r) =
      (Brackets.reach mode depth url (p.reverse ++ before) r).map (· + p.length) :=
  h mode depth url before r hmode

theorem overlooked_nil : Overlooked [] := by simp [Overlooked]

theorem overlooked_singleton {c : Char} (h : isInert c = true) : Overlooked [c] := by
  obtain ⟨hplain, hslash, hstar, hline⟩ := isInert_iff.mp h
  obtain ⟨hquote, hopen, hclose, hescape⟩ := isPlain_iff.mp hplain
  intro mode depth url before r hmode
  show reach mode depth url before (c :: r) = (reach mode depth url (c :: before) r).map (· + 1)
  cases hmode with
  | code =>
    rw [reach_code (.of_ne hescape hslash), hquote, hopen, hclose]
    rfl
  | @quoted quote hmode =>
    have hne : c ≠ quote := (Text.ne_of_class hmode hquote).symm
    rw [reach, if_neg hne]
    exact fun _ _ h _ => hescape h
  | lineComment => rw [reach, if_neg hline]
  | blockComment =>
    rw [reach]
    exact fun _ h _ => hstar h

theorem Overlooked.append {p q : Text} (hp : Overlooked p) (hq : Overlooked q) :
    Overlooked (p ++ q) := by
  intro mode depth url before r hmode
  rw [List.append_assoc, hp.reach hmode, hq.reach hmode]
  simp [Function.comp_def, Nat.add_comm, Nat.add_left_comm]

theorem overlooked_of_forall : ∀ {p : Text}, (∀ c ∈ p, isInert c = true) → Overlooked p
  | [], _ => overlooked_nil
  | c :: p, h => by
    obtain ⟨hc, hp⟩ := List.forall_mem_cons.mp h
    exact (overlooked_singleton hc).append (overlooked_of_forall hp)

/-- The scanner does not notice that the characters of a source are written in this way. -/
structure Unnoticed (write : Char → Text) : Prop where
  literal : ∀ c, isInert c = false → write c = [c]
  overlooked : ∀ c, isInert c = true → Overlooked (write c)
  /-- A backslash takes only the first character with it; the others are overlooked as well.
  Behind a star or a slash nothing new is the other half of a mark. -/
  first : ∀ c, isInert c = true → ∃ x v, write c = x :: v ∧ x ≠ '*' ∧ x ≠ '/' ∧ Overlooked v
  behind : ∀ c b b', SameBehind b b' → SameBehind (c :: b) ((write c).reverse ++ b')

namespace Unnoticed

variable {write : Char → Text} (hw : Unnoticed write)
include hw

/-- A star or a slash is written just for itself. -/
theorem exists_of_flatMap {t u : Text} {x : Char} (hx : x = '*' ∨ x = '/')
    (h : t.flatMap write = x :: u) : ∃ v, t = x :: v := by
  cases t with
  | nil => exact absurd h (by simp)
  | cons c t =>
    rw [List.flatMap_cons] at h
    cases hc : isInert c with
    | false =>
      rw [hw.literal c hc] at h
      exact ⟨t, by rw [(List.cons.inj h).1]⟩
    | true =>
      obtain ⟨y, v, hy, hstar, hslash, -⟩ := hw.first c hc
      rw [hy] at h
      obtain rfl := (List.cons.inj h).1
      rcases hx with hx | hx
      · exact absurd hx hstar
      · exact absurd hx hslash

theorem flatMap_eq_self {p : Text} (h : ∀ c ∈ p, isInert c = false) : p.flatMap write = p :=
  (List.flatMap_congr fun c hc => hw.literal c (h c hc)).trans (List.flatMap_singleton' p)

theorem sameBehind_flatMap {before before' : Text} (hb : SameBehind before before') (p : Text) :
    SameBehind (p.reverse ++ before) ((p.flatMap write).reverse ++ before') := by
  induction p generalizing before before' with
  | nil => exact hb
  | cons c p ih =>
    rw [List.reverse_cons, List.append_assoc, List.flatMap_cons, List.reverse_append,
      List.append_assoc]
    exact ih (hw.behind c _ _ hb)

end Unnoticed

/-! ## One step -/

section

variable {write : Char → Text} {before before' t p : Text} {s s' : State}

theorem Step.proper (h : Step before t s p s') (hmode : s.mode.Proper) : s'.mode.Proper := by
  cases h with
  | lineComment => exact .ite .code .lineComment
  | blockComment => exact .blockComment
  | quoted => exact .ite .code hmode
  | quotedEscape => exact hmode
  | blockCommentStart => exact .blockComment
  | lineCommentStart => exact .lineComment
  | quote hquote => exact .quoted hquote
  | blockCommentEnd | escape | opening | closing | other => exact .code

/-- Over an inert character the scanner stays where it is, and what is in front of that in the same
step is a backslash that escapes it. -/
theorem Step.of_isInert {c : Char} (h : Step before t s p s') (hmode : s.mode.Proper) (hmem : c ∈ p)
    (hc : isInert c = true) : s' = s ∧
      (p = [c] ∨ p = ['\x5c', c] ∧ ∀ x before t, Step before t s ['\x5c', x] s) := by
  obtain ⟨hplain, hslash, hstar, hline⟩ := isInert_iff.mp hc
  obtain ⟨hquote, hopen, hclose, hescape⟩ := isPlain_iff.mp hplain
  cases h with
  | lineComment x =>
    obtain rfl := List.mem_singleton.mp hmem
    exact ⟨by rw [if_neg hline], .inl rfl⟩
  | blockComment | other =>
    obtain rfl := List.mem_singleton.mp hmem
    exact ⟨rfl, .inl rfl⟩
  | quoted =>
    obtain rfl := List.mem_singleton.mp hmem
    cases hmode with
    | quoted hq => exact ⟨by rw [if_neg (Text.ne_of_class hq hquote).symm], .inl rfl⟩
  | quotedEscape x =>
    obtain rfl := List.mem_singleton.mp ((List.mem_cons.mp hmem).resolve_left hescape)
    exact ⟨rfl, .inr ⟨rfl, fun x _ _ => .quotedEscape x⟩⟩
  | escape x =>
    obtain rfl := List.mem_singleton.mp ((List.mem_cons.mp hmem).resolve_left hescape)
    exact ⟨rfl, .inr ⟨rfl, fun x _ _ => .escape x⟩⟩
  | blockCommentEnd | blockCommentStart | lineCommentStart =>
    exact absurd hmem (by simp [hslash, hstar])
  | quote hquote' =>
    rw [List.mem_singleton.mp hmem] at hquote
    exact absurd (hquote'.symm.trans hquote) (by decide)
  | opening hopen' =>
    rw [List.mem_singleton.mp hmem] at hopen
    exact absurd (hopen'.symm.trans hopen) (by decide)
  | closing hclose' =>
    rw [List.mem_singleton.mp hmem] at hclose
    exact absurd (hclose'.symm.trans hclose) (by decide)

/-- Of what is written for an escaped character a backslash takes one character with it, and the
scanner overlooks the others. -/
theorem Unnoticed.reach_escaped (hw : Unnoticed write) {c : Char} (hc : isInert c = true)
    (hmode : s.mode.Proper) (hskip : ∀ x before t, Step before t s ['\x5c', x] s)
    (before r : Text) : s.reach before ('\x5c' :: (write c ++ r)) =
      (s.reach ((write c).reverse ++ '\x5c' :: before) r).map (· + ((write c).length + 1)) := by
  obtain ⟨x, v, hx, -, -, hv⟩ := hw.first c hc
  have hover : s.reach (x :: '\x5c' :: before) (v ++ r) =
      (s.reach (v.reverse ++ x :: '\x5c' :: before) r).map (· + v.length) := hv.reach hmode _ r
  have hstep : s.reach before ('\x5c' :: x :: (v ++ r)) =
      (s.reach (x :: '\x5c' :: before) (v ++ r)).map (· + 2) := (hskip x before _).reach_eq
  rw [hx, List.cons_append, hstep, hover]
  simp [Function.comp_def, Nat.add_assoc]

/-- The scanner gets over what is written for the characters of a step. -/
theorem Unnoticed.reach_step (hw : Unnoticed write) (h : Step before t s p s')
    (hmode : s.mode.Proper) (hb : SameBehind before before') :
    s.reach before' (p.flatMap write ++ t.flatMap write) =
      (s'.reach ((p.flatMap write).reverse ++ before') (t.flatMap write)).map
        (· + (p.flatMap write).length) := by
  by_cases hinert : ∃ c ∈ p, isInert c = true
  · obtain ⟨c, hmem, hc⟩ := hinert
    obtain ⟨rfl, rfl | ⟨rfl, hskip⟩⟩ := h.of_isInert hmode hmem hc
    · rw [List.flatMap_singleton]
      exact (hw.overlooked c hc).reach hmode before' _
    · have hover := hw.reach_escaped hc hmode hskip before' (t.flatMap write)
      simpa [hw.literal '\x5c' rfl] using hover
  · rw [hw.flatMap_eq_self fun c hc => Bool.eq_false_iff.mpr fun hi => hinert ⟨c, hc, hi⟩]
    exact (h.transfer hb.afterUrl_eq (by rintro rfl; rfl) fun _ _ => hw.exists_of_flatMap).reach_eq

end

/-! ## Both scans -/

/-- Both scans take a step over `p`. -/
theorem map_length_take (write : Char → Text) (p r : Text) (o : Option Nat) :
    (o.map fun n => ((r.take n).flatMap write).length).map (· + (p.flatMap write).length) =
      (o.map (· + p.length)).map fun n => (((p ++ r).take n).flatMap write).length := by
  cases o with
  | none => rfl
  | some n =>
    have htake : (p ++ r).take (n + p.length) = p ++ r.take n := by
      rw [List.take_append, List.take_of_length_le (by omega), Nat.add_sub_cancel]
    simp only [Option.map_some, htake, List.flatMap_append, List.length_append, Nat.add_comm]

theorem Unnoticed.state_reach {write : Char → Text} (hw : Unnoticed write) {s : State}
    {before t : Text} (hmode : s.mode.Proper) {before' : Text} (hb : SameBehind before before') :
    s.reach before' (t.flatMap write) =
      (s.reach before t).map fun n => ((t.take n).flatMap write).length := by
  induction s, before, t using State.induction generalizing before' with
  | nil => simp
  | stop depth url before c t hclose hdepth =>
    have hc : write c = [c] := hw.literal c (by simp [isInert, isPlain, hclose])
    rw [List.flatMap_cons, hc, List.singleton_append, State.reach_stop hclose hdepth,
      State.reach_stop hclose hdepth]
    simp [hc]
  | step s before p t s' hstep ih =>
    have hrest := ih (hstep.proper hmode) (hw.sameBehind_flatMap hb p)
    rw [List.flatMap_append, hw.reach_step hstep hmode hb, hrest, hstep.reach_eq]
    exact map_length_take write p t _

/-- **A scan does not notice how its source is written**: it stops at the same character, behind
what is written for all those in front of it. -/
theorem Unnoticed.reach {write : Char → Text} (hw : Unnoticed write) {before t : Text}
    (hmode : mode.Proper) {before' : Text} (hb : SameBehind before before') :
    Brackets.reach mode depth url before' (t.flatMap write) =
      (Brackets.reach mode depth url before t).map fun n =>
        ((t.take n).flatMap write).length :=
  hw.state_reach (s := ⟨mode, depth, url⟩) hmode hb

end Brackets
end UtilityCss
