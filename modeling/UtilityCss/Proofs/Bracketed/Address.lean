import Mathlib.Data.List.Infix
import UtilityCss.Proofs.Brackets.Reading
import UtilityCss.Proofs.Bytewise.Value
import UtilityCss.Proofs.Value.Signs

/-!
# Addresses in brackets

The conversion of a bracketed text keeps the underscores in the arguments of `url(`.  What it takes
for such an argument is not what the scanner of brackets takes for one: the conversion knows the
name in lower case only and counts parentheses, while the scanner reads the name in any case and
knows quotes, escapes and the other brackets.  `InAddress` is the former, `InCall` the latter.

The conversion is followed from the front of the text.  Between addresses, the text read so far
leaves no address open, and no call of `url` has been begun that the rest of the text would
complete (`Outside`); both are kept by every character that is passed and by every address as a
whole.  So the text is converted outside of addresses (`Outside.converts`), and it is converted
outside of the calls that the scanner sees just if the two agree at every underscore.
-/

namespace UtilityCss
namespace Bracketed

open Value (Open Within)

/-! ## Conversions -/

/-- The second text is the first one, converted where `inside` does not hold of what is in front: an
underscore becomes a blank, or loses the backslash in front of it.  The text in front of both is
`front`. -/
inductive Converts (inside : Text → Prop) : Text → Text → Text → Prop where
  | nil {front : Text} : Converts inside front [] []
  | keep {front t u : Text} : inside front → Converts inside (front ++ ['_']) t u →
    Converts inside front ('_' :: t) ('_' :: u)
  | blank {front t u : Text} : ¬inside front → Converts inside (front ++ ['_']) t u →
    Converts inside front ('_' :: t) (' ' :: u)
  | unescape {front t u : Text} : ¬inside (front ++ ['\x5c']) →
    Converts inside ((front ++ ['\x5c']) ++ ['_']) t u →
    Converts inside front ('\x5c' :: '_' :: t) ('_' :: u)
  | other {front t u : Text} {c : Char} : c ≠ '_' →
    (∀ v, c = '\x5c' → t = '_' :: v → inside (front ++ [c])) →
    Converts inside (front ++ [c]) t u → Converts inside front (c :: t) (c :: u)

/-- Does the statement hold at every underscore of the text, of what is in front of it? -/
def AtUnderscores (inside : Text → Prop) (front t : Text) : Prop :=
  ∀ a b, t = a ++ '_' :: b → inside (front ++ a)

section AtUnderscores

variable {inside inside' : Text → Prop} {front t u : Text}

theorem AtUnderscores.nil : AtUnderscores inside front [] := fun _ _ hab => absurd hab (by simp)

theorem atUnderscores_append : AtUnderscores inside front (t ++ u) ↔
    AtUnderscores inside front t ∧ AtUnderscores inside (front ++ t) u := by
  constructor
  · refine fun h => ⟨fun a b hab => h a (b ++ u) (by rw [hab]; simp), fun a b hab => ?_⟩
    rw [List.append_assoc]
    exact h (t ++ a) b (by rw [hab]; simp)
  · rintro ⟨ht, hu⟩ a b hab
    rcases Text.append_eq_append_cons hab with ⟨v, hv, -⟩ | ⟨v, rfl, hv⟩
    · exact ht a v hv
    · rw [← List.append_assoc]
      exact hu v b hv

theorem atUnderscores_of_not_mem (h : '_' ∉ t) : AtUnderscores inside front t :=
  fun a b hab => absurd (by simp [hab]) h

theorem atUnderscores_cons {c : Char} : AtUnderscores inside front (c :: t) ↔
    (c = '_' → inside front) ∧ AtUnderscores inside (front ++ [c]) t := by
  have hone : AtUnderscores inside front [c] ↔ (c = '_' → inside front) := by
    constructor
    · rintro h rfl
      have hinside := h [] [] rfl
      rwa [List.append_nil] at hinside
    · intro h a b hab
      obtain ⟨rfl, hb⟩ | ⟨a, rfl, hnil⟩ := List.cons_eq_append_iff.mp hab
      · rw [List.append_nil]
        exact h (List.cons.inj hb).1.symm
      · exact absurd hnil (by simp)
  rw [← hone]
  exact atUnderscores_append (t := [c])

end AtUnderscores

namespace Converts

variable {inside inside' : Text → Prop} {front t u : Text}

/-- A conversion depends on what holds at the underscores only. -/
theorem congr (h : Converts inside front t u) :
    AtUnderscores (fun a => inside a ↔ inside' a) front t → Converts inside' front t u := by
  induction h with
  | nil => exact fun _ => .nil
  | keep hin _ ih =>
    intro hall
    obtain ⟨hhere, hrest⟩ := atUnderscores_cons.mp hall
    exact .keep ((hhere rfl).mp hin) (ih hrest)
  | blank hout _ ih =>
    intro hall
    obtain ⟨hhere, hrest⟩ := atUnderscores_cons.mp hall
    exact .blank (fun hin => hout ((hhere rfl).mpr hin)) (ih hrest)
  | unescape hout _ ih =>
    intro hall
    obtain ⟨hhere, hrest⟩ := atUnderscores_cons.mp (atUnderscores_cons.mp hall).2
    exact .unescape (fun hin => hout ((hhere rfl).mpr hin)) (ih hrest)
  | other hc hescape _ ih =>
    intro hall
    obtain ⟨-, hrest⟩ := atUnderscores_cons.mp hall
    refine .other hc (fun v hv ht => ?_) (ih hrest)
    have hhere := hrest [] v ht
    rw [List.append_nil] at hhere
    exact hhere.mp (hescape v hv ht)

/-- What comes out tells at each underscore whether it was converted. -/
theorem agree (h : Converts inside front t u) (h' : Converts inside' front t u) :
    AtUnderscores (fun a => inside a ↔ inside' a) front t := by
  induction h with
  | nil => exact .nil
  | keep hin _ ih =>
    cases h' with
    | keep hin' h' => exact atUnderscores_cons.mpr ⟨fun _ => iff_of_true hin hin', ih h'⟩
    | other hc => exact absurd rfl hc
  | blank hout _ ih =>
    cases h' with
    | blank hout' h' => exact atUnderscores_cons.mpr ⟨fun _ => iff_of_false hout hout', ih h'⟩
  | unescape hout _ ih =>
    cases h' with
    | unescape hout' h' =>
      exact atUnderscores_cons.mpr ⟨fun h => absurd h (by decide),
        atUnderscores_cons.mpr ⟨fun _ => iff_of_false hout hout', ih h'⟩⟩
  | other hc _ _ ih =>
    cases h' with
    | keep => exact absurd rfl hc
    | other _ _ h' => exact atUnderscores_cons.mpr ⟨fun h => absurd h hc, ih h'⟩

/-- Where all underscores are kept the text is. -/
theorem eq_self (h : Converts inside front t u) : AtUnderscores inside front t → u = t := by
  induction h with
  | nil => exact fun _ => rfl
  | keep _ _ ih => exact fun hall => congrArg _ (ih (atUnderscores_cons.mp hall).2)
  | blank hout => exact fun hall => absurd ((atUnderscores_cons.mp hall).1 rfl) hout
  | unescape hout =>
    exact fun hall => absurd ((atUnderscores_cons.mp (atUnderscores_cons.mp hall).2).1 rfl) hout
  | other _ _ _ ih => exact fun hall => congrArg _ (ih (atUnderscores_cons.mp hall).2)

/-- What is kept in front of a text stays as it is, if no backslash at its end meets the text. -/
theorem prepend {v : Text} (hlast : ∀ w, v = w ++ ['\x5c'] → t = [])
    (hin : AtUnderscores inside front v) (h : Converts inside (front ++ v) t u) :
    Converts inside front (v ++ t) (v ++ u) := by
  induction v generalizing front with
  | nil => rwa [List.append_nil] at h
  | cons c v ih =>
    obtain ⟨hhere, hbehind⟩ := atUnderscores_cons.mp hin
    rw [List.append_cons] at h
    have hrest : Converts inside (front ++ [c]) (v ++ t) (v ++ u) :=
      ih (fun w hw => hlast (c :: w) (by rw [hw]; rfl)) hbehind h
    by_cases hc : c = '_'
    · subst hc
      exact .keep (hhere rfl) hrest
    · refine .other hc (fun w hescape hw => ?_) hrest
      cases v with
      | nil =>
        rw [hlast [] (by rw [hescape]; rfl)] at hw
        exact absurd hw (by simp)
      | cons d v => exact (atUnderscores_cons.mp hbehind).1 (List.cons.inj hw).1

/-- Both parts of a text are converted, if no escape stands on both sides of the cut. -/
theorem split {w : Text} (h : Converts inside front w u) : ∀ {v : Text}, w = v ++ t →
    (∀ x y, v = x ++ ['\x5c'] → t ≠ '_' :: y) →
    ∃ v' t', u = v' ++ t' ∧ Converts inside front v v' ∧ Converts inside (front ++ v) t t' := by
  have atFront : ∀ {front w u : Text}, Converts inside front w u → w = [] ++ t →
      ∃ v' t', u = v' ++ t' ∧ Converts inside front [] v' ∧ Converts inside (front ++ []) t t' := by
    rintro front _ u h rfl
    exact ⟨[], u, rfl, .nil, by rwa [List.append_nil]⟩
  -- behind what is converted at the front the rest is cut
  have behind : ∀ {front p q v u : Text},
      (∀ v', Converts inside (front ++ p) v v' → Converts inside front (p ++ v) (q ++ v')) →
      (∃ v' t', u = v' ++ t' ∧ Converts inside (front ++ p) v v' ∧
        Converts inside (front ++ p ++ v) t t') →
      ∃ v' t', q ++ u = v' ++ t' ∧ Converts inside front (p ++ v) v' ∧
        Converts inside (front ++ (p ++ v)) t t' := by
    rintro front p q v _ hfront ⟨v', t', rfl, hv, ht⟩
    exact ⟨q ++ v', t', (List.append_assoc ..).symm, hfront v' hv, by rwa [← List.append_assoc]⟩
  induction h with
  | nil =>
    intro v hv _
    obtain ⟨rfl, rfl⟩ := List.append_eq_nil_iff.mp hv.symm
    exact atFront .nil rfl
  | keep hin hrest ih =>
    rintro (_ | ⟨c, v⟩) hv hcut
    · exact atFront (.keep hin hrest) hv
    · obtain ⟨rfl, htail⟩ := List.cons.inj hv
      exact behind (p := ['_']) (q := ['_']) (fun _ => .keep hin)
        (ih htail fun x y hx => hcut ('_' :: x) y (congrArg _ hx))
  | blank hout hrest ih =>
    rintro (_ | ⟨c, v⟩) hv hcut
    · exact atFront (.blank hout hrest) hv
    · obtain ⟨rfl, htail⟩ := List.cons.inj hv
      exact behind (p := ['_']) (q := [' ']) (fun _ => .blank hout)
        (ih htail fun x y hx => hcut ('_' :: x) y (congrArg _ hx))
  | unescape hout hrest ih =>
    rintro (_ | ⟨c, _ | ⟨d, v⟩⟩) hv hcut
    · exact atFront (.unescape hout hrest) hv
    · obtain ⟨rfl, ht⟩ := List.cons.inj hv
      exact absurd ht.symm (hcut [] _ rfl)
    · obtain ⟨rfl, hnext⟩ := List.cons.inj hv
      obtain ⟨rfl, htail⟩ := List.cons.inj hnext
      rw [List.append_assoc] at ih
      refine behind (p := ['\x5c', '_']) (q := ['_']) (fun v' hv' => .unescape hout ?_)
        (ih htail fun x y hx => hcut ('\x5c' :: '_' :: x) y (congrArg (_ :: _ :: ·) hx))
      rwa [List.append_assoc]
  | @other front w u c hc hescape hrest ih =>
    rintro (_ | ⟨d, v⟩) hv hcut
    · exact atFront (.other hc hescape hrest) hv
    · obtain ⟨rfl, htail⟩ := List.cons.inj hv
      refine behind (p := [c]) (q := [c]) (fun _ => .other hc fun r hr hv => ?_)
        (ih htail fun x y hx => hcut (c :: x) y (congrArg _ hx))
      exact hescape (r ++ t) hr (by rw [htail, hv]; rfl)

theorem refl_of_atUnderscores (hin : AtUnderscores inside front t) :
    Converts inside front t t := by
  have h := prepend (t := []) (fun _ _ => rfl) hin .nil
  rwa [List.append_nil] at h

end Converts

/-- Behind the text an address is open: one of the parentheses behind `url` in it has not been
closed. -/
def InAddress (front : Text) : Prop := Within (fun name => ['u', 'r', 'l'] <:+ name) front

/-! ## Where an address ends -/

/-- An address is kept up to the parenthesis that closes it, or up to the end of the text. -/
theorem callLength_open : ∀ {m b : Text} {k : Nat}, Open k b → b.count ')' + k = b.count '(' →
    (∃ front rest, m = front ++ ')' :: rest ∧ callLength (k + 1) m = front.length + 1 ∧
      Open 0 (b ++ front) ∧ (b ++ front).count ')' = (b ++ front).count '(') ∨
    callLength (k + 1) m = m.length ∧ Open 0 (b ++ m)
  | [], b, k, hopen, _ => .inr ⟨rfl, by rw [List.append_nil]; exact hopen.mono (Nat.zero_le k)⟩
  | c :: m, b, k, hopen, hexact => by
    have hnext : ∀ {k' : Nat}, callLength (k + 1) (c :: m) = callLength (k' + 1) m + 1 →
        Open k' (b ++ [c]) → (b ++ [c]).count ')' + k' = (b ++ [c]).count '(' →
        (∃ front rest, c :: m = front ++ ')' :: rest ∧
          callLength (k + 1) (c :: m) = front.length + 1 ∧ Open 0 (b ++ front) ∧
            (b ++ front).count ')' = (b ++ front).count '(') ∨
        callLength (k + 1) (c :: m) = (c :: m).length ∧ Open 0 (b ++ c :: m) := by
      intro k' hlength hopen' hexact'
      rcases callLength_open (m := m) hopen' hexact' with
        ⟨front, rest, rfl, hfront, hclosed, hcount⟩ | ⟨hfront, hclosed⟩
      · rw [← List.append_cons] at hclosed hcount
        exact .inl ⟨c :: front, rest, rfl, by rw [hlength, hfront]; rfl, hclosed, hcount⟩
      · rw [← List.append_cons] at hclosed
        exact .inr ⟨by rw [hlength, hfront]; rfl, hclosed⟩
    by_cases hopening : c = '('
    · subst hopening
      have hclose : (b ++ ['(']).count ')' = b.count ')' := by simp
      have hcount : (b ++ ['(']).count '(' = b.count '(' + 1 := by simp
      exact hnext (by rw [callLength, if_pos rfl]) hopen.opening (by omega)
    by_cases hclosing : c = ')'
    · subst hclosing
      cases k with
      | zero =>
        exact .inl ⟨[], m, rfl, by rw [callLength, if_neg hopening, if_pos rfl]; rfl,
          by rw [List.append_nil]; exact hopen, by rw [List.append_nil]; exact hexact⟩
      | succ k =>
        have hclose : (b ++ [')']).count ')' = b.count ')' + 1 := by simp
        have hcount : (b ++ [')']).count '(' = b.count '(' := by simp
        exact hnext (by rw [callLength, if_neg hopening, if_pos rfl, if_neg (by omega)]; rfl)
          hopen.closing (by omega)
    · refine hnext (by rw [callLength, if_neg hopening, if_neg hclosing])
        (hopen.other hopening hclosing) ?_
      simpa [List.count_append, List.count_singleton, hopening, hclosing] using hexact

theorem callLength_cases (u : Text) :
    (∃ inner rest, u = inner ++ ')' :: rest ∧ callLength 1 u = inner.length + 1 ∧ Open 0 inner ∧
      inner.count ')' = inner.count '(') ∨
    callLength 1 u = u.length ∧ Open 0 u :=
  callLength_open Open.nil rfl

/-! ## Between addresses -/

/-- What the lookup of an address begins with. -/
def urlLead : Text := ['u', 'r', 'l', '(']

theorem count_urlLead : urlLead.count ')' = 0 ∧ urlLead.count '(' = 1 := by decide

theorem count_closing : List.count ')' [')'] = 1 ∧ List.count '(' [')'] = 0 := by decide

/-- Between the text read so far and the rest no address goes on: none is open, and no call of
`url` stands on both sides. -/
structure Outside (front rest : Text) : Prop where
  address : ¬InAddress front
  straddle : ∀ a b, front = a ++ b → b ≠ [] → b.length < 4 →
    Text.startsWith (b ++ rest) urlLead = false

theorem Outside.nil (t : Text) : Outside [] t :=
  ⟨fun ⟨a, b, h, _⟩ => absurd h (by simp),
    fun a b h hb => absurd (List.append_eq_nil_iff.mp h.symm).2 hb⟩

/-- An address stays open behind characters that are no parentheses. -/
theorem InAddress.of_concat {front : Text} {c : Char} (h : InAddress (front ++ [c])) :
    InAddress front ∨ c = '(' ∧ ['u', 'r', 'l'] <:+ front := by
  obtain ⟨a, b, hab, hname, hopen⟩ := h
  obtain rfl | ⟨b, x, rfl⟩ := List.eq_nil_or_concat' b
  · obtain ⟨rfl, hc⟩ := List.append_inj' hab rfl
    exact .inr ⟨(List.cons.inj hc).1, hname⟩
  · have hsplit : a ++ '(' :: (b ++ [x]) = (a ++ '(' :: b) ++ [x] := by simp
    rw [hsplit] at hab
    obtain ⟨rfl, -⟩ := List.append_inj' hab rfl
    exact .inl ⟨a, b, rfl, hname, fun p hp => hopen p (hp.trans (List.prefix_append b [x]))⟩

/-- A character at which no call of `url` begins is passed. -/
theorem Outside.next {front rest : Text} {c : Char} (h : Outside front (c :: rest))
    (hstart : Text.startsWith (c :: rest) urlLead = false) : Outside (front ++ [c]) rest := by
  refine ⟨fun haddress => ?_, fun a b hab hb hlength => ?_⟩
  · rcases haddress.of_concat with hopen | ⟨rfl, x, hx⟩
    · exact h.address hopen
    · have hcall := h.straddle x ['u', 'r', 'l'] hx.symm (by simp) (by simp)
      have hlead : ['u', 'r', 'l'] ++ '(' :: rest = urlLead ++ rest := rfl
      rw [hlead, Text.startsWith_iff.mpr ⟨rest, rfl⟩] at hcall
      exact Bool.noConfusion hcall
  · obtain rfl | ⟨b, x, rfl⟩ := List.eq_nil_or_concat' b
    · exact absurd rfl hb
    · rw [← List.append_assoc] at hab
      obtain ⟨hfront, hx⟩ := List.append_inj' hab rfl
      obtain rfl := (List.cons.inj hx).1
      rw [List.append_assoc, List.singleton_append]
      cases b with
      | nil => exact hstart
      | cons y b =>
        rw [List.length_append] at hlength
        exact h.straddle a (y :: b) hfront (List.cons_ne_nil y b) (Nat.lt_of_succ_lt hlength)

/-- In front of the parenthesis that closes an address no more is closed than has been opened. -/
theorem count_le_of_prefix {inner z : Text} (hopen : Open 0 inner) (hz : z <+: urlLead ++ inner) :
    z.count ')' ≤ z.count '(' := by
  obtain ⟨v, hv⟩ := hz
  rcases List.append_eq_append_iff.mp hv with ⟨w, hw, -⟩ | ⟨w, rfl, hw⟩
  · have hnone : ')' ∉ z := fun hmem => by
      have hlead : ')' ∈ urlLead := by simp [hw, hmem]
      exact absurd hlead (by decide)
    rw [List.count_eq_zero.mpr hnone]
    exact Nat.zero_le _
  · have hinner := hopen.1 w ⟨v, hw.symm⟩
    have hlead := count_urlLead
    rw [List.count_append, List.count_append]
    omega

/-- An address that is closed is passed as a whole. -/
theorem Outside.behind {front inner rest : Text}
    (h : Outside front (urlLead ++ (inner ++ ')' :: rest)))
    (hopen : Open 0 inner) (hcount : inner.count ')' = inner.count '(') :
    Outside (front ++ (urlLead ++ (inner ++ [')']))) rest := by
  have hends : inner.count ')' ≤ inner.count '(' := Nat.le_of_eq hcount
  refine ⟨?_, fun a b hab hb hlength => ?_⟩
  · rintro ⟨a, b, hab, hname, hb⟩
    rcases Text.append_eq_append_cons hab with ⟨v, rfl, rfl⟩ | ⟨z, rfl, hz⟩
    · -- the parenthesis was open before
      exact h.address ⟨a, v, rfl, hname, fun p hp => hb p (hp.trans (List.prefix_append v _))⟩
    · -- the parenthesis belongs to the address, in which all are closed
      have hfront : z.count ')' ≤ z.count '(' := by
        rw [← List.append_assoc] at hz
        rcases Text.append_eq_append_cons hz with ⟨v, hv, -⟩ | ⟨v, -, hv⟩
        · exact count_le_of_prefix hopen ⟨_, hv.symm⟩
        · cases v with
          | nil => exact absurd (List.cons.inj hv).1 (by decide)
          | cons y v => exact absurd (List.cons.inj hv).2 (by simp)
      have hback := hb b (List.prefix_refl b)
      have hclosed := congrArg (List.count ')') hz
      have hopened := congrArg (List.count '(') hz
      have hlead := count_urlLead
      have hone := count_closing
      have hcons : List.count ')' ('(' :: b) = b.count ')' ∧
          List.count '(' ('(' :: b) = b.count '(' + 1 :=
        ⟨List.count_cons_of_ne (by decide), List.count_cons_self⟩
      rw [List.count_append, List.count_append, List.count_append] at hclosed hopened
      omega
  · obtain rfl | ⟨b, x, rfl⟩ := List.eq_nil_or_concat' b
    · exact absurd rfl hb
    · rw [← List.append_assoc, ← List.append_assoc, ← List.append_assoc] at hab
      obtain ⟨-, hx⟩ := List.append_inj' hab rfl
      obtain rfl := (List.cons.inj hx).1
      refine Bool.eq_false_iff.mpr fun hstart => ?_
      obtain ⟨u, hu⟩ := Text.startsWith_iff.mp hstart
      rcases List.append_eq_append_iff.mp hu with ⟨w, hw, -⟩ | ⟨w, hw, -⟩
      · have hmem : ')' ∈ urlLead := by simp [hw]
        exact absurd hmem (by decide)
      · have hlong := congrArg List.length hw
        have hlead : (urlLead ++ w).length = 4 + w.length := List.length_append
        omega

/-- An underscore behind an open address is in it. -/
theorem atUnderscores_of_open {front inner : Text} (hopen : Open 0 inner) :
    AtUnderscores InAddress front (urlLead ++ inner) := by
  refine atUnderscores_append.mpr ⟨atUnderscores_of_not_mem (by decide), fun a b hab => ?_⟩
  refine ⟨front ++ ['u', 'r', 'l'], a, by simp [urlLead], List.suffix_append front _,
    fun p hp => ?_⟩
  exact hopen.1 p (hp.trans ⟨_, hab.symm⟩)

theorem atUnderscores_of_closed {front inner : Text} (hopen : Open 0 inner) :
    AtUnderscores InAddress front (urlLead ++ (inner ++ [')'])) := by
  rw [← List.append_assoc]
  exact atUnderscores_append.mpr
    ⟨atUnderscores_of_open hopen, atUnderscores_of_not_mem (by decide)⟩

/-! ## What is converted -/

/-- An address is kept as it is, and what follows is converted. -/
theorem spaceAfter_address (u : Text) :
    spaceAfter 0 (urlLead ++ u) = urlLead ++ (u.take (callLength 1 u) ++
      spaceAfter 0 (u.drop (callLength 1 u))) := by
  have hlength : callLength 0 (urlLead ++ u) - 1 = callLength 1 u + 3 := rfl
  have hstart : Text.startsWith (urlLead ++ u) "url(" = true := Text.startsWith_iff.mpr ⟨u, rfl⟩
  have hfirst : spaceAfter 0 (urlLead ++ u) =
      'u' :: spaceAfter (callLength 0 (urlLead ++ u) - 1) ('r' :: 'l' :: '(' :: u) :=
    (Bytewise.spaceAfter_cons rfl).trans (if_pos hstart)
  rw [hfirst, hlength, ← Bytewise.spaceAfter_eq]
  rfl

theorem spaceAfter_closed {inner rest : Text}
    (h : callLength 1 (inner ++ ')' :: rest) = inner.length + 1) :
    spaceAfter 0 (urlLead ++ (inner ++ ')' :: rest)) =
      (urlLead ++ (inner ++ [')'])) ++ spaceAfter 0 rest := by
  have hlast : inner ++ ')' :: rest = (inner ++ [')']) ++ rest := by simp
  have hend : (inner ++ [')']).length = inner.length + 1 := by simp
  rw [spaceAfter_address, h, hlast, List.take_left' hend, List.drop_left' hend]
  exact (List.append_assoc ..).symm

/-- The address in front of a text is kept, and so is one that is not closed. -/
theorem Outside.converts_address {front u : Text} (h : Outside front (urlLead ++ u))
    (hshorter : ∀ {front' t}, t.length < (urlLead ++ u).length → Outside front' t →
      Converts InAddress front' t (spaceAfter 0 t)) :
    Converts InAddress front (urlLead ++ u) (spaceAfter 0 (urlLead ++ u)) := by
  rcases callLength_cases u with ⟨inner, rest, rfl, hinner, hopen, hcount⟩ | ⟨hinner, hopen⟩
  · have hsplit : urlLead ++ (inner ++ ')' :: rest) = (urlLead ++ (inner ++ [')'])) ++ rest := by
      simp
    have hrest := hshorter (by simp only [List.length_append, List.length_cons]; omega)
      (h.behind hopen hcount)
    rw [spaceAfter_closed hinner, hsplit]
    refine .prepend (fun w hw => ?_) (atUnderscores_of_closed hopen) hrest
    rw [← List.append_assoc] at hw
    exact absurd (List.append_inj' hw rfl).2 (by decide)
  · rw [spaceAfter_address, hinner, List.take_length, List.drop_length, spaceAfter, List.append_nil]
    exact .refl_of_atUnderscores (atUnderscores_of_open hopen)

/-- Outside of addresses an underscore becomes a blank, or loses the backslash in front of it. -/
theorem Outside.converts_cons {front t : Text} {c : Char} (h : Outside front (c :: t))
    (hstart : Text.startsWith (c :: t) urlLead = false)
    (hshorter : ∀ {front' u}, u.length < (c :: t).length → Outside front' u →
      Converts InAddress front' u (spaceAfter 0 u)) :
    Converts InAddress front (c :: t) (spaceAfter 0 (c :: t)) := by
  have hnext := h.next hstart
  by_cases hescape : c = '\x5c' ∧ ∃ u, t = '_' :: u
  · obtain ⟨rfl, u, rfl⟩ := hescape
    exact .unescape hnext.address
      (hshorter (by simp only [List.length_cons]; omega) (hnext.next rfl))
  have hplain : (c = '\x5c' && Text.startsWith t ['_']) = false := by
    refine Bool.eq_false_iff.mpr fun hboth => hescape ?_
    obtain ⟨hc, ht⟩ := (Bool.and_eq_true ..).mp hboth
    exact ⟨of_decide_eq_true hc, Text.startsWith_iff.mp ht⟩
  have hspaced : spaceAfter 0 (c :: t) = (if c = '_' then ' ' else c) :: spaceAfter 0 t :=
    (Bytewise.spaceAfter_cons hplain).trans (if_neg (by
      rw [show Text.startsWith (c :: t) "url(" = false from hstart]
      exact Bool.false_ne_true))
  have hrest := hshorter (Nat.lt_succ_self _) hnext
  rw [hspaced]
  by_cases hc : c = '_'
  · subst hc
    exact .blank h.address hrest
  · rw [if_neg hc]
    exact .other hc (fun v hv ht => absurd ⟨hv, v, ht⟩ hescape) hrest

/-- Outside of an address the text is converted, and the addresses in it are kept. -/
theorem Outside.converts {front t : Text} (h : Outside front t) :
    Converts InAddress front t (spaceAfter 0 t) := by
  induction hlength : t.length using Nat.strongRecOn generalizing front t with
  | _ n ih =>
    have hshorter : ∀ {front' u}, u.length < t.length → Outside front' u →
        Converts InAddress front' u (spaceAfter 0 u) :=
      fun hu hout => ih _ (hlength ▸ hu) hout rfl
    cases t with
    | nil => exact .nil
    | cons c t =>
      cases hstart : Text.startsWith (c :: t) urlLead with
      | true =>
        obtain ⟨u, hu⟩ := Text.startsWith_iff.mp hstart
        rw [hu] at h hshorter ⊢
        exact h.converts_address hshorter
      | false => exact h.converts_cons hstart hshorter

theorem converts_spaced (t : Text) : Converts InAddress [] t (spaced t) :=
  (Outside.nil t).converts

/-! ## The calls that the scanner sees -/

/-- In the text the scanner sees a closed call of `url`: in front of its parenthesis stands `name`,
in any case of letters, and behind it `arguments`, the bracket that closes the call included. -/
structure IsCall (t front name arguments rest : Text) : Prop where
  text : t = front ++ (name ++ '(' :: (arguments ++ rest))
  length_name : name.length = 3
  afterUrl : Brackets.afterUrl name.reverse = true
  closed : Brackets.closingAt t (Text.bytes (front ++ name)) =
    (Text.bytes (front ++ (name ++ '(' :: arguments)), true)

/-- The character of the text in front of which the other text stands belongs to such a call. -/
def InCall (t before : Text) : Prop :=
  ∃ front name arguments rest, IsCall t front name arguments rest ∧ front <+: before ∧
    before.length < (front ++ (name ++ '(' :: arguments)).length

/-- The call of `url` whose parenthesis stands between the two texts has its name in lower case and
ends for the scanner where it ends for the conversion. -/
def EndsAlike (front rest : Text) : Prop :=
  ['u', 'r', 'l'] <:+ front ∧
    Brackets.closingAt (front ++ '(' :: rest) (Text.bytes front) =
      (Text.bytes (front ++ '(' :: rest.take (callLength 1 rest)), true)

instance (front rest : Text) : Decidable (EndsAlike front rest) :=
  inferInstanceAs (Decidable (_ ∧ _))

theorem afterUrl_append {front name : Text} (hname : name.length = 3) :
    Brackets.afterUrl (front ++ name).reverse = Brackets.afterUrl name.reverse := by
  obtain ⟨u, r, l, rfl⟩ := List.length_eq_three.mp hname
  rw [List.reverse_append]
  rfl

/-- The underscores of a call belong to it. -/
theorem IsCall.atUnderscores {t front name arguments rest : Text}
    (h : IsCall t front name arguments rest) :
    AtUnderscores (InCall t) front (name ++ '(' :: arguments) := by
  refine fun a b hab => ⟨front, name, arguments, rest, h, List.prefix_append front a, ?_⟩
  rw [hab, List.length_append, List.length_append, List.length_append, List.length_cons]
  omega

/-- A call ends in a bracket. -/
theorem IsCall.exists_closing {t front name arguments rest : Text}
    (h : IsCall t front name arguments rest) :
    ∃ body close, '(' :: arguments = body ++ [close] ∧ Brackets.isClosing close = true := by
  have htext : t = (front ++ name) ++ '(' :: (arguments ++ rest) := by
    rw [h.text, List.append_assoc]
  have hclosed := h.closed
  rw [htext, Brackets.closingAt_bytes] at hclosed
  split at hclosed
  next n hn =>
    obtain ⟨body, close, r, hread, hclose, rfl⟩ := Brackets.exists_of_reach hn
    have hbytes := congrArg Prod.fst hclosed
    dsimp only at hbytes
    rw [hread, List.append_cons, List.take_left' (by simp), ← List.append_assoc front,
      Text.bytes_append (front ++ name), Nat.add_left_cancel_iff] at hbytes
    have hread' : ('(' :: arguments) ++ rest = (body ++ [close]) ++ r := by
      rw [List.cons_append, hread, List.append_cons]
    exact ⟨body, close, Text.append_inj_of_bytes hread' hbytes.symm, hclose⟩
  next => exact absurd (congrArg Prod.snd hclosed) Bool.false_ne_true

/-- Where the calls are left out of the conversion each of them is copied as a whole. -/
theorem IsCall.copied {t u front name arguments rest : Text}
    (h : IsCall t front name arguments rest) (hu : Converts (InCall t) [] t u) :
    ∃ v w, u = v ++ ((name ++ '(' :: arguments) ++ w) ∧ Converts (InCall t) [] front v ∧
      Converts (InCall t) (front ++ (name ++ '(' :: arguments)) rest w := by
  have htext : t = front ++ ((name ++ '(' :: arguments) ++ rest) := by
    rw [h.text, List.append_assoc, List.cons_append]
  obtain ⟨c, l, r, rfl⟩ := List.length_eq_three.mp h.length_name
  have hname : c ≠ '_' := by
    rintro rfl
    exact absurd h.afterUrl (by simp [Brackets.afterUrl])
  obtain ⟨v, _, rfl, hv, hcall⟩ := hu.split htext fun _ _ _ heq => hname (List.cons.inj heq).1
  rw [List.nil_append] at hcall
  obtain ⟨body, close, hbody, hclose⟩ := h.exists_closing
  obtain ⟨call, w, rfl, hkept, hw⟩ := hcall.split rfl fun x y heq _ => by
    rw [hbody, ← List.append_assoc] at heq
    obtain rfl := (List.cons.inj (List.append_inj' heq rfl).2).1
    exact absurd hclose (by decide)
  rw [hkept.eq_self h.atUnderscores]
  exact ⟨v, w, rfl, hv, hw⟩

/-- An address goes on over a character as long as no more parentheses are closed in front of it
than have been opened. -/
theorem lt_callLength_iff {p b : Text} {c : Char} : p.length < callLength 1 (p ++ c :: b) ↔
    ∀ q, q <+: p → q.count ')' ≤ q.count '(' := by
  rcases callLength_cases (p ++ c :: b) with
    ⟨inner, rest, hinner, hlength, hopen, hcount⟩ | ⟨hlength, hopen⟩
  · rw [hlength]
    rcases Text.append_eq_append_cons hinner.symm with ⟨v, rfl, -⟩ | ⟨v, rfl, hv⟩
    · refine iff_of_true (by rw [List.length_append]; omega) fun q hq => ?_
      exact hopen.1 q (hq.trans (List.prefix_append p _))
    · cases v with
      | nil =>
        rw [List.append_nil]
        exact iff_of_true (Nat.lt_succ_self _) hopen.1
      | cons d v =>
        obtain ⟨rfl, -⟩ := List.cons.inj hv
        refine iff_of_false (by rw [List.length_append, List.length_cons]; omega) fun h => ?_
        -- the parenthesis that closes the address is closed in `p`
        have hclosed := h (inner ++ [')']) ⟨v, by simp⟩
        have hone := count_closing
        rw [List.count_append, List.count_append] at hclosed
        omega
  · rw [hlength]
    refine iff_of_true (by rw [List.length_append, List.length_cons]; omega) fun q hq => ?_
    exact hopen.1 q (hq.trans (List.prefix_append p _))

/-- If all calls of `url` end for the scanner where they end for the conversion, the underscores in
them are those in addresses. -/
theorem inCall_iff_inAddress {t : Text}
    (h : ∀ front rest, t = front ++ '(' :: rest → Brackets.afterUrl front.reverse = true →
      EndsAlike front rest) :
    AtUnderscores (fun a => InCall t a ↔ InAddress a) [] t := by
  intro a b hab
  rw [List.nil_append]
  constructor
  · rintro ⟨front, name, arguments, rest, hcall, ⟨a, rfl⟩, hlength⟩
    have htext : t = (front ++ name) ++ '(' :: (arguments ++ rest) := by
      rw [hcall.text, List.append_assoc]
    obtain ⟨hname, hend⟩ := h _ _ htext (by rw [afterUrl_append hcall.length_name, hcall.afterUrl])
    have harguments : arguments = (arguments ++ rest).take (callLength 1 (arguments ++ rest)) := by
      have hbytes := hcall.closed
      rw [htext, hend, ← List.append_assoc] at hbytes
      have hfront := Text.append_inj_of_bytes
        (u := (arguments ++ rest).drop (callLength 1 (arguments ++ rest))) (v := rest)
        (by simp) (congrArg Prod.fst hbytes)
      exact (List.cons.inj (List.append_cancel_left hfront)).2.symm
    obtain rfl : name = ['u', 'r', 'l'] := by
      obtain ⟨w, hw⟩ := hname
      exact (List.append_inj' hw hcall.length_name.symm).2.symm
    have hsplit : urlLead ++ (arguments ++ rest) = a ++ '_' :: b := by
      have hwhole := hcall.text.symm.trans hab
      rw [List.append_assoc] at hwhole
      exact List.append_cancel_left hwhole
    rcases Text.append_eq_append_cons hsplit with ⟨v, hv, -⟩ | ⟨p, rfl, hp⟩
    · have hmem : '_' ∈ urlLead := by simp [hv]
      exact absurd hmem (by decide)
    · refine ⟨front ++ ['u', 'r', 'l'], p, by simp [urlLead], List.suffix_append front _, ?_⟩
      refine lt_callLength_iff (c := '_') (b := b) |>.mp ?_
      have hlong := congrArg List.length harguments
      rw [List.length_take] at hlong
      rw [← hp]
      simp only [List.length_append, List.length_cons, List.length_nil, urlLead] at hlength
      omega
  · rintro ⟨x, p, rfl, ⟨front, rfl⟩, hopen⟩
    have htext : t = (front ++ ['u', 'r', 'l']) ++ '(' :: (p ++ '_' :: b) := by
      rw [hab, List.append_assoc (front ++ _), List.cons_append]
    obtain ⟨-, hend⟩ := h _ _ htext (by rw [afterUrl_append rfl]; rfl)
    have hlength : p.length < callLength 1 (p ++ '_' :: b) := lt_callLength_iff.mpr hopen
    generalize hk : callLength 1 (p ++ '_' :: b) = k at hend hlength
    refine ⟨front, ['u', 'r', 'l'], (p ++ '_' :: b).take k, (p ++ '_' :: b).drop k,
      ⟨?_, rfl, rfl, ?_⟩, ⟨['u', 'r', 'l'] ++ '(' :: p, by simp⟩, ?_⟩
    · rw [List.take_append_drop, htext, List.append_assoc]
    · rw [htext, hend, List.append_assoc]
    · simp only [List.length_append, List.length_cons, List.length_take, List.length_nil]
      omega

/-- **Underscores are converted outside of addresses, and nothing else is changed.**  The calls of
`url` that the scanner of brackets sees are copied, and the rest is converted, just if at each
underscore the two agree on whether it stands in an address; so it is if all calls, in any case of
letters, are written in lower case and end for the scanner where counting parentheses ends them. -/
theorem spaced_converts (t : Text) :
    Converts InAddress [] t (spaced t) ∧
    (Converts (InCall t) [] t (spaced t) ↔
      ∀ a b, t = a ++ '_' :: b → (InCall t a ↔ InAddress a)) ∧
    ((∀ front rest, t = front ++ '(' :: rest → Brackets.afterUrl front.reverse = true →
      EndsAlike front rest) →
      Converts (InCall t) [] t (spaced t) ∧
      ∀ front name arguments rest, IsCall t front name arguments rest →
        ∃ v w, spaced t = v ++ ((name ++ '(' :: arguments) ++ w) ∧
          Converts (InCall t) [] front v ∧
          Converts (InCall t) (front ++ (name ++ '(' :: arguments)) rest w) := by
  have hspaced := converts_spaced t
  have hiff : Converts (InCall t) [] t (spaced t) ↔
      AtUnderscores (fun a => InCall t a ↔ InAddress a) [] t :=
    ⟨fun h => h.agree hspaced, fun h => hspaced.congr fun a b hab => (h a b hab).symm⟩
  refine ⟨hspaced, hiff, fun h => ?_⟩
  have hcalls := hiff.mpr (inCall_iff_inAddress h)
  exact ⟨hcalls, fun _ _ _ _ hcall => hcall.copied hcalls⟩

/-- The parentheses of a file name are counted by both. -/
theorem spaced_converts_parentheses :
    let t := "url(a_(b)_c.png)_x\\_y".toList
    (∀ front rest, t = front ++ '(' :: rest → Brackets.afterUrl front.reverse = true →
      EndsAlike front rest) ∧
    spaced t = "url(a_(b)_c.png) x_y" ∧ Converts (InCall t) [] t (spaced t) := by
  intro t
  have hends : ∀ front rest, t = front ++ '(' :: rest → Brackets.afterUrl front.reverse = true →
      EndsAlike front rest := by
    have hall : ∀ n < t.length, Brackets.afterUrl (t.take n).reverse = true →
        EndsAlike (t.take n) (t.drop (n + 1)) := by decide +kernel
    intro front rest htext hurl
    have hfront : t.take front.length = front := by rw [htext, List.take_left]
    have hrest : t.drop (front.length + 1) = rest := by
      rw [htext, List.append_cons, List.drop_left' (by simp)]
    have hends := hall front.length (by rw [htext, List.length_append, List.length_cons]; omega)
    rw [hfront, hrest] at hends
    exact hends hurl
  exact ⟨hends, by decide, ((spaced_converts t).2.2 hends).1⟩

/-- A quoted parenthesis ends the address, and a name in capitals begins none. -/
theorem spaced_converts_quoted :
    let quoted := "url(\x22a)_b\x22)".toList
    let capital := "URL(a_b)".toList
    (IsCall quoted [] "url" "\x22a)_b\x22)" [] ∧ spaced quoted = "url(\x22a) b\x22)" ∧
      ¬Converts (InCall quoted) [] quoted (spaced quoted)) ∧
    IsCall capital [] "URL" "a_b)" [] ∧ spaced capital = "URL(a b)" ∧
      ¬Converts (InCall capital) [] capital (spaced capital) := by
  intro quoted capital
  have hquoted : IsCall quoted [] "url" "\x22a)_b\x22)" [] := ⟨rfl, rfl, rfl, by decide⟩
  have hcapital : IsCall capital [] "URL" "a_b)" [] := ⟨rfl, rfl, rfl, by decide⟩
  refine ⟨⟨hquoted, by decide, fun h => ?_⟩, hcapital, by decide, fun h => ?_⟩
  · exact absurd (h.eq_self hquoted.atUnderscores) (by decide)
  · exact absurd (h.eq_self hcapital.atUnderscores) (by decide)

end Bracketed
end UtilityCss
