import UtilityCss.Proofs.ClassList.Layout

/-!
# The reader follows the grammar

Every place has a derivation, and the reader returns what any derivation says as soon
as its bound is three times the number of characters ahead.  Together the two
statements free every later argument from the bound: what the reader does on a source
is read off a derivation, and a derivation is all that has to be given to know what
the reader does.

The factor three is the number of calls from one character to the next.  From a link
of a chain the reader comes to the chains of a group and back to a link; from an
expression it comes to a group or an applied variant and back to an expression.
-/

namespace UtilityCss
namespace ClassList

/-! ## What a head excludes -/

/-- Where a head is read the source goes on with a name, and not with the separator. -/
theorem Head.exists_of_read? {sep : Separator} {c d : Cursor} {head : Head}
    (h : Head.read? sep c = some (head, d)) :
    ∃ ch t, c.rest = ch :: t ∧ isNameChar ch = true ∧ sep.startsIn c.rest = false := by
  obtain ⟨ch, t, hp, hch, -⟩ := Head.read?_laid h
  refine ⟨ch, t ++ d.rest, hp.rest_eq, hch, ?_⟩
  cases hsep : sep.startsIn c.rest with
  | false => rfl
  | true =>
    have hnone : nameLength sep c.rest = 0 := by
      rw [hp.rest_eq, List.cons_append] at hsep ⊢
      rw [nameLength, hsep]
      simp
    rw [Head.read?_eq_none hnone] at h
    exact absurd h (by simp)

/-- No head is read at a character that is not part of a name. -/
theorem Head.isAt_eq_false {sep : Separator} {c d : Cursor} {head : Head} {ch : Char}
    (h : Head.read? sep c = some (head, d)) (hch : isNameChar ch = false) :
    c.isAt ch = false := by
  obtain ⟨x, t, hc, hx, -⟩ := Head.exists_of_read? h
  cases hat : c.isAt ch with
  | false => rfl
  | true =>
    obtain ⟨r, hr⟩ := Cursor.isAt_iff.mp hat
    obtain rfl : ch = x := by
      rw [hc] at hr
      exact (List.cons.inj hr).1.symm
    rw [hch] at hx
    exact absurd hx (by decide)

/-! ## Variants -/

theorem Unlinked.link?_eq {sep : Separator} {stop : Nat} {c : Cursor} (h : Unlinked sep stop c) :
    ∀ fuel, link? sep stop fuel c = none
  | 0 => by rw [link?]
  | fuel + 1 => by
    rw [link?]
    split
    next hat => rw [if_pos (h.selector hat)]
    next =>
      split
      next hat =>
        dsimp only
        rw [if_pos]
        cases hclosed : (Brackets.closing c).closed with
        | false => rfl
        | true => simpa using h.group hat hclosed
      next =>
        cases hread : Head.read? sep c with
        | none => rfl
        | some r =>
          obtain ⟨head, d⟩ := r
          dsimp only
          rw [if_pos (h.named head d hread)]

/-- A chain does not go back, and with a link it goes on. -/
theorem ReadsChain.length_le {sep : Separator} {stop : Nat} {c d : Cursor}
    {links : List Variant} (hstop : 1 ≤ stop) (h : ReadsChain sep stop c links d) :
    d.rest.length ≤ c.rest.length ∧ (links ≠ [] → d.rest.length < c.rest.length) := by
  induction links generalizing c with
  | nil =>
    cases h with
    | done _ => exact ⟨Nat.le_refl _, fun h => absurd rfl h⟩
  | cons v links ih =>
    cases h with
    | last _ _ hv _ =>
      obtain ⟨t, hne, hp, -, -⟩ := hv.laid hstop
      have hlen := hp.length
      have hpos := List.length_pos_of_ne_nil hne
      exact ⟨by omega, fun _ => by omega⟩
    | link _ _ hv _ hlinks =>
      obtain ⟨t, hne, hp, -, -⟩ := hv.laid hstop
      have hrest := (ih hlinks).1
      rw [Cursor.rest_advance, List.length_drop] at hrest
      have hlen := hp.length
      have hpos := List.length_pos_of_ne_nil hne
      exact ⟨by omega, fun _ => by omega⟩

mutual

/-- The reader returns the variant of a derivation. -/
theorem ReadsVariant.link?_eq {sep : Separator} {stop : Nat} {c d : Cursor} {v : Variant} :
    ReadsVariant sep stop c v d → ∀ fuel, 3 * c.rest.length ≤ fuel → 1 ≤ c.rest.length →
      link? sep stop fuel c = some (v, d)
  | .named hread hd, fuel, hfuel, hc => by
    obtain ⟨k, rfl⟩ : ∃ k, fuel = k + 1 := ⟨fuel - 1, by omega⟩
    rw [link?, if_neg (by rw [Head.isAt_eq_false hread (by decide)]; decide),
      if_neg (by rw [Head.isAt_eq_false hread (by decide)]; decide), hread]
    dsimp only
    rw [if_neg (by omega)]
  | .selector hat hadvance hd, fuel, hfuel, hc => by
    obtain ⟨k, rfl⟩ : ∃ k, fuel = k + 1 := ⟨fuel - 1, by omega⟩
    rw [link?, if_pos hat]
    dsimp only
    rw [hadvance, if_neg (by omega)]
  | .group hat hclosed hadvance hd hmembers, fuel, hfuel, hc => by
    obtain ⟨k, rfl⟩ : ∃ k, fuel = k + 1 := ⟨fuel - 1, by omega⟩
    have hlen : (c.advance 1).rest.length = c.rest.length - 1 := by
      rw [Cursor.rest_advance, List.length_drop]
    rw [link?, if_neg (by rw [Cursor.isAt_eq_false_of_ne hat (by decide)]; decide), if_pos hat]
    dsimp only
    rw [hadvance, hclosed, if_neg (by simp; omega),
      ReadsChains.chains_eq (by omega) hmembers k (by omega)]

/-- The reader returns the links of a derivation. -/
theorem ReadsChain.chain_eq {sep : Separator} {stop : Nat} {c d : Cursor}
    {links : List Variant} (hstop : 1 ≤ stop) :
    ReadsChain sep stop c links d → ∀ fuel, 3 * c.rest.length + 1 ≤ fuel →
      chain sep stop fuel c = (links, d)
  | .done hend, fuel, hfuel => by
    obtain ⟨k, rfl⟩ : ∃ k, fuel = k + 1 := ⟨fuel - 1, by omega⟩
    rw [chain]
    rcases hend with hlen | hgap | hnone
    · rw [if_pos (by simp [hlen])]
    · rw [if_pos (by simp [hgap])]
    · rw [hnone.link?_eq]
      split <;> rfl
  | .last hlen hgap hv hsep, fuel, hfuel => by
    obtain ⟨k, rfl⟩ : ∃ k, fuel = k + 1 := ⟨fuel - 1, by omega⟩
    rw [chain, if_neg (by simp [hgap]; omega), hv.link?_eq k (by omega) (by omega)]
    dsimp only
    rw [if_neg (by rw [hsep]; decide)]
  | .link hlen hgap hv hsep hlinks, fuel, hfuel => by
    obtain ⟨k, rfl⟩ : ∃ k, fuel = k + 1 := ⟨fuel - 1, by omega⟩
    obtain ⟨t, hne, hp, -, -⟩ := hv.laid hstop
    have hpos := List.length_pos_of_ne_nil hne
    have hlength := hp.length
    rw [chain, if_neg (by simp [hgap]; omega), hv.link?_eq k (by omega) (by omega)]
    dsimp only
    rw [if_pos hsep, ReadsChain.chain_eq hstop hlinks k
      (by rw [Cursor.rest_advance, List.length_drop]; omega)]

/-- The reader returns the chains of a derivation. -/
theorem ReadsChains.chains_eq {sep : Separator} {stop : Nat} {c : Cursor}
    {members : List (List Variant)} (hstop : 1 ≤ stop) :
    ReadsChains sep stop c members → ∀ fuel, 3 * c.rest.length + 2 ≤ fuel →
      chains sep stop fuel c = members
  | .done hend, fuel, hfuel => by
    obtain ⟨k, rfl⟩ : ∃ k, fuel = k + 1 := ⟨fuel - 1, by omega⟩
    rw [chains, if_pos hend]
  | .stray hlen hnone hmembers, fuel, hfuel => by
    obtain ⟨k, rfl⟩ : ∃ k, fuel = k + 1 := ⟨fuel - 1, by omega⟩
    obtain ⟨b, hp, -, -⟩ := Cursor.passes_skipBlanks c
    have hlength := hp.length
    have hchain : chain sep stop k c.skipBlanks = ([], c.skipBlanks) :=
      ReadsChain.chain_eq hstop (.done (Or.inr (Or.inr hnone))) k (by omega)
    have hroom : 1 ≤ roomLength stop c.skipBlanks := by unfold roomLength; omega
    have ih := ReadsChains.chains_eq hstop hmembers k
      (by rw [Cursor.rest_advance, List.length_drop]; omega)
    rw [chains, if_neg (by omega), hchain]
    exact congrArg _ ih
  | .chain (d := a) hlen hchain hmembers, fuel, hfuel => by
    obtain ⟨k, rfl⟩ : ∃ k, fuel = k + 1 := ⟨fuel - 1, by omega⟩
    obtain ⟨b, hp, -, -⟩ := Cursor.passes_skipBlanks c
    have hlength := hp.length
    have hless := (hchain.length_le hstop).2 (List.cons_ne_nil _ _)
    have ih := ReadsChains.chains_eq hstop hmembers k (by omega)
    rw [chains, if_neg (by omega), ReadsChain.chain_eq hstop hchain k (by omega)]
    exact congrArg _ ih

end

/-! ## Every place in a group has a derivation -/

/-- A variant begins a chain. -/
theorem exists_readsChain_cons {sep : Separator} {stop : Nat} {c d : Cursor} {v : Variant}
    (hlen : stop < c.rest.length) (hgap : c.isAtGap = false) (hv : ReadsVariant sep stop c v d)
    (hnext : sep.startsIn d.rest = true →
      ∃ links e, ReadsChain sep stop (d.advance sep.text.length) links e) :
    ∃ links e, ReadsChain sep stop c (v :: links) e := by
  cases hsep : sep.startsIn d.rest with
  | false => exact ⟨[], d, .last hlen hgap hv hsep⟩
  | true =>
    obtain ⟨links, e, hlinks⟩ := hnext hsep
    exact ⟨links, e, .link hlen hgap hv hsep hlinks⟩

mutual

theorem exists_readsVariant (sep : Separator) (stop : Nat) (c : Cursor) :
    (∃ v d, ReadsVariant sep stop c v d) ∨ Unlinked sep stop c := by
  cases hbracket : c.isAt '[' with
  | true =>
    have hparen : c.isAt '(' = false := Cursor.isAt_eq_false_of_ne hbracket (by decide)
    by_cases hstop : stop ≤ (c.advance (Brackets.closing c).length).rest.length
    · exact Or.inl ⟨_, _, .selector hbracket rfl hstop⟩
    · refine Or.inr ⟨fun _ => by omega, fun h => ?_, fun head d hread => ?_⟩
      · rw [hparen] at h
        exact absurd h (by decide)
      · rw [Head.isAt_eq_false hread (by decide)] at hbracket
        exact absurd hbracket (by decide)
  | false =>
    have hselector : c.isAt '[' = true →
        (c.advance (Brackets.closing c).length).rest.length < stop := by
      intro h
      rw [hbracket] at h
      exact absurd h (by decide)
    cases hparen : c.isAt '(' with
    | true =>
      by_cases hfits : (Brackets.closing c).closed = true ∧
          stop ≤ (c.advance (Brackets.closing c).length).rest.length
      · obtain ⟨r, hr⟩ := Cursor.isAt_iff.mp hparen
        have hless : (c.advance 1).rest.length < c.rest.length := by
          rw [Cursor.rest_advance, List.length_drop, hr, List.length_cons]
          omega
        obtain ⟨members, hmembers⟩ := exists_readsChains sep
          ((c.advance (Brackets.closing c).length).rest.length + 1) (Nat.le_add_left 1 _)
          (c.advance 1)
        exact Or.inl ⟨_, _, .group hparen hfits.1 rfl hfits.2 hmembers⟩
      · refine Or.inr ⟨hselector, fun _ hclosed => ?_, fun head d hread => ?_⟩
        · by_contra hnot
          exact hfits ⟨hclosed, by omega⟩
        · rw [Head.isAt_eq_false hread (by decide)] at hparen
          exact absurd hparen (by decide)
    | false =>
      have hgroup : c.isAt '(' = true → (Brackets.closing c).closed = true →
          (c.advance (Brackets.closing c).length).rest.length < stop := by
        intro h
        rw [hparen] at h
        exact absurd h (by decide)
      cases hread : Head.read? sep c with
      | none =>
        refine Or.inr ⟨hselector, hgroup, fun head d h => ?_⟩
        rw [hread] at h
        exact absurd h (by simp)
      | some r =>
        obtain ⟨head, d⟩ := r
        by_cases hstop : stop ≤ d.rest.length
        · exact Or.inl ⟨_, _, .named hread hstop⟩
        · refine Or.inr ⟨hselector, hgroup, fun head' d' h => ?_⟩
          rw [hread] at h
          obtain ⟨-, rfl⟩ := Prod.mk.inj (Option.some.inj h)
          omega
termination_by 3 * c.rest.length

theorem exists_readsChain (sep : Separator) (stop : Nat) (hstop : 1 ≤ stop) (c : Cursor) :
    ∃ links d, ReadsChain sep stop c links d := by
  by_cases hlen : c.rest.length ≤ stop
  · exact ⟨[], c, .done (Or.inl hlen)⟩
  cases hgap : c.isAtGap with
  | true => exact ⟨[], c, .done (Or.inr (Or.inl hgap))⟩
  | false =>
    rcases exists_readsVariant sep stop c with ⟨v, d, hv⟩ | hnone
    · obtain ⟨t, hne, hp, -, -⟩ := hv.laid hstop
      have hpos := List.length_pos_of_ne_nil hne
      have hlength := hp.length
      have hless : (d.advance sep.text.length).rest.length < c.rest.length := by
        rw [Cursor.rest_advance, List.length_drop]
        omega
      obtain ⟨links, e, hlinks⟩ := exists_readsChain_cons (by omega) hgap hv
        fun _ => exists_readsChain sep stop hstop (d.advance sep.text.length)
      exact ⟨v :: links, e, hlinks⟩
    · exact ⟨[], c, .done (Or.inr (Or.inr hnone))⟩
termination_by 3 * c.rest.length + 1

/-- Every place in a group of variants has a derivation. -/
theorem exists_readsChains (sep : Separator) (stop : Nat) (hstop : 1 ≤ stop) (c : Cursor) :
    ∃ members, ReadsChains sep stop c members := by
  obtain ⟨b, hp, -, hgap⟩ := Cursor.passes_skipBlanks c
  have hlength := hp.length
  by_cases hlen : c.skipBlanks.rest.length ≤ stop
  · exact ⟨[], .done hlen⟩
  rcases exists_readsVariant sep stop c.skipBlanks with ⟨v, d, hv⟩ | hnone
  · have hgap : c.skipBlanks.isAtGap = false := by
      obtain ⟨x, r, hr⟩ := List.exists_cons_of_length_pos (l := c.skipBlanks.rest) (by omega)
      rw [Cursor.isAtGap, hr]
      exact hgap x r hr
    obtain ⟨t, -, hp', -, -⟩ := hv.laid hstop
    have hlength' := hp'.length
    have hle : (d.advance sep.text.length).rest.length ≤ c.rest.length := by
      rw [Cursor.rest_advance, List.length_drop]
      omega
    obtain ⟨links, e, hlinks⟩ := exists_readsChain_cons (by omega) hgap hv
      fun _ => exists_readsChain sep stop hstop (d.advance sep.text.length)
    have hless := (hlinks.length_le hstop).2 (List.cons_ne_nil _ _)
    obtain ⟨members, hmembers⟩ := exists_readsChains sep stop hstop e
    exact ⟨_, .chain (by omega) hlinks hmembers⟩
  · have hroom : 1 ≤ roomLength stop c.skipBlanks := by unfold roomLength; omega
    have hless : (c.skipBlanks.advance (roomLength stop c.skipBlanks)).rest.length <
        c.rest.length := by
      rw [Cursor.rest_advance, List.length_drop]
      omega
    obtain ⟨members, hmembers⟩ := exists_readsChains sep stop hstop
      (c.skipBlanks.advance (roomLength stop c.skipBlanks))
    exact ⟨_, .stray (by omega) hnone hmembers⟩
termination_by 3 * c.rest.length + 2

end

/-! ## Where the reader turns -/

section

variable {sep : Separator} {inGroup important : Bool} {c start d : Cursor} {head : Head}

theorem expr?_of_atEnd (h : AtEnd inGroup c) : ∀ fuel, expr? sep inGroup fuel c = none
  | 0 => by rw [expr?]
  | fuel + 1 => by
    rw [expr?.eq_def]
    rcases h with hnil | ⟨rfl, hat⟩
    · simp only [hnil]
    · obtain ⟨r, hr⟩ := Cursor.isAt_iff.mp hat
      simp only [hr]
      rfl

/-- A mark of importance with something behind it that is not the separator. -/
theorem expr?_of_bang {next : Char} {r : Text} (hmarks : Marks true c start)
    (hr : start.rest = next :: r) (fuel : Nat) :
    expr? sep inGroup (fuel + 1) c = some (
      if next = '(' then paren sep inGroup true c fuel start
      else if next = '[' then bracket sep inGroup true c fuel start
      else if isNameChar next && !sep.startsIn (next :: r) then
        name sep inGroup true c fuel start
      else stray inGroup c) := by
  obtain ⟨hat, rfl⟩ : c.isAt '!' = true ∧ c.advance 1 = start := hmarks
  obtain ⟨t, ht⟩ := Cursor.isAt_iff.mp hat
  have htail : t = next :: r := by
    rw [Cursor.rest_advance, ht] at hr
    exact hr
  rw [expr?.eq_def]
  simp only [ht, htail]
  rw [if_neg (by simp), if_pos trivial]
  split
  · rfl
  split
  · rfl
  split
  · rfl
  · rfl

/-- Something without a mark of importance. -/
theorem expr?_of_plain {ch : Char} {r : Text} (hr : c.rest = ch :: r) (hbang : ch ≠ '!')
    (hend : ¬ AtEnd inGroup c) (fuel : Nat) :
    expr? sep inGroup (fuel + 1) c = some (
      if ch = '(' then paren sep inGroup false c fuel c
      else if ch = '[' then bracket sep inGroup false c fuel c
      else if Brackets.isOpening ch || Brackets.isClosing ch then stray inGroup c
      else name sep inGroup false c fuel c) := by
  have hclose : ¬ (inGroup && decide (ch = ')')) = true := by
    intro h
    obtain ⟨hg, hch⟩ := Bool.and_eq_true_iff.mp h
    refine hend (Or.inr ⟨hg, Cursor.isAt_iff.mpr ⟨r, ?_⟩⟩)
    rw [hr, of_decide_eq_true hch]
  rw [expr?.eq_def]
  simp only [hr]
  rw [if_neg hclose, if_neg hbang]
  split
  · rfl
  split
  · rfl
  split
  · rfl
  · rfl

theorem not_atEnd_of_isAt {ch : Char} (hat : c.isAt ch = true) (hch : ch ≠ ')') :
    ¬ AtEnd inGroup c := by
  rintro (hnil | ⟨-, hclose⟩)
  · rw [Cursor.isAt, hnil] at hat
    exact absurd hat (by simp)
  · rw [Cursor.isAt_eq_false_of_ne hat hch] at hclose
    exact absurd hclose (by decide)

theorem expr?_of_head (hmarks : Marks important c start)
    (hread : Head.read? sep start = some (head, d)) (fuel : Nat) :
    expr? sep inGroup (fuel + 1) c = some (name sep inGroup important c fuel start) := by
  obtain ⟨ch, r, hr, hch, hsep⟩ := Head.exists_of_read? hread
  obtain ⟨-, hopen, hclose, hbang⟩ := isNameChar_iff.mp hch
  have hparen : ch ≠ '(' := by rintro rfl; exact absurd hopen (by decide)
  have hsquare : ch ≠ '[' := by rintro rfl; exact absurd hopen (by decide)
  have hshut : ch ≠ ')' := by rintro rfl; exact absurd hclose (by decide)
  cases important with
  | true =>
    rw [hr] at hsep
    rw [expr?_of_bang hmarks hr, if_neg hparen, if_neg hsquare, if_pos (by simp [hch, hsep])]
  | false =>
    obtain rfl : c = start := hmarks
    rw [expr?_of_plain hr hbang (not_atEnd_of_isAt (Cursor.isAt_iff.mpr ⟨r, hr⟩) hshut),
      if_neg hparen, if_neg hsquare, if_neg (by simp [hopen, hclose])]

theorem expr?_of_bracket (hmarks : Marks important c start) (hat : start.isAt '[' = true)
    (fuel : Nat) :
    expr? sep inGroup (fuel + 1) c = some (bracket sep inGroup important c fuel start) := by
  obtain ⟨r, hr⟩ := Cursor.isAt_iff.mp hat
  cases important with
  | true => rw [expr?_of_bang hmarks hr, if_neg (by decide), if_pos rfl]
  | false =>
    obtain rfl : c = start := hmarks
    rw [expr?_of_plain hr (by decide) (not_atEnd_of_isAt hat (by decide)), if_neg (by decide),
      if_pos rfl]

theorem expr?_of_paren (hmarks : Marks important c start) (hat : start.isAt '(' = true)
    (fuel : Nat) :
    expr? sep inGroup (fuel + 1) c = some (paren sep inGroup important c fuel start) := by
  obtain ⟨r, hr⟩ := Cursor.isAt_iff.mp hat
  cases important with
  | true => rw [expr?_of_bang hmarks hr, if_pos rfl]
  | false =>
    obtain rfl : c = start := hmarks
    rw [expr?_of_plain hr (by decide) (not_atEnd_of_isAt hat (by decide)), if_pos rfl]

theorem name_of_none (hread : Head.read? sep start = none) (fuel : Nat) :
    name sep inGroup important c (fuel + 1) start = stray inGroup c := by
  rw [name, hread]

theorem expr?_of_stray (hend : ¬ AtEnd inGroup c) (hstray : AtStray sep c) (fuel : Nat) :
    expr? sep inGroup (fuel + 2) c = some (stray inGroup c) := by
  obtain ⟨ch, r, hr⟩ := List.exists_cons_of_ne_nil (fun hnil => hend (Or.inl hnil))
  have hne : ∀ {d : Cursor} {x next : Char} {u : Text}, d.rest = next :: u →
      d.isAt x = false → next ≠ x := by
    rintro d x next u hd hat rfl
    rw [Cursor.isAt_iff.mpr ⟨u, hd⟩] at hat
    exact absurd hat (by decide)
  by_cases hbang : ch = '!'
  · subst hbang
    have hmarks : Marks true c (c.advance 1) := ⟨Cursor.isAt_iff.mpr ⟨r, hr⟩, rfl⟩
    obtain ⟨hread, hparen, hsquare⟩ := hstray true _ hmarks
    have hrest : (c.advance 1).rest = r := by rw [Cursor.rest_advance, hr]; rfl
    cases r with
    | nil =>
      rw [expr?.eq_def]
      simp only [hr]
      rw [if_neg (by simp), if_pos trivial]
    | cons next r =>
      rw [expr?_of_bang hmarks hrest, if_neg (hne hrest hparen), if_neg (hne hrest hsquare),
        name_of_none hread, ite_self]
  · obtain ⟨hread, hparen, hsquare⟩ := hstray false c rfl
    rw [expr?_of_plain hr hbang hend, if_neg (hne hr hparen), if_neg (hne hr hsquare),
      name_of_none hread, ite_self]

/-- Behind the separator nothing is read before a blank, a parenthesis or the end. -/
theorem applied_of_gap {v : Variant} (hgap : (d.isAtGap || d.isAt ')') = true) (fuel : Nat) :
    applied sep inGroup c v fuel d = (.span (c.upTo d) v none, d) := by
  cases fuel with
  | zero => rw [applied]
  | succ fuel => rw [applied, if_pos hgap]

theorem applied_of_expr {v : Variant} {e : Expr} {f : Cursor}
    (hgap : (d.isAtGap || d.isAt ')') = false) {fuel : Nat}
    (he : expr? sep inGroup fuel d = some (e, f)) :
    applied sep inGroup c v (fuel + 1) d = (.span (c.upTo f) v (some e), f) := by
  rw [applied, if_neg (by rw [hgap]; decide), he]

/-- A variant in front of its separator is applied to what follows. -/
theorem expr?_of_variant {v : Variant} (hv : ReadsVariant sep 1 c v d)
    (hsep : sep.startsIn d.rest = true) {fuel : Nat} (hfuel : 3 * c.rest.length ≤ fuel) :
    expr? sep inGroup (fuel + 2) c =
      some (applied sep inGroup c v fuel (d.advance sep.text.length)) := by
  cases hv with
  | named hread hd =>
    rw [expr?_of_head (marks_false c) hread, name, hread]
    dsimp only
    rw [if_pos (by simp [hsep])]
  | selector hat hadvance hd =>
    have hclosed := closed_of_stop (by decide) hat hadvance hd
    rw [expr?_of_bracket (marks_false c) hat, bracket]
    dsimp only
    rw [hadvance, if_pos (by simp [hclosed, hsep])]
  | group hat hclosed hadvance hd hmembers =>
    obtain ⟨r, hr⟩ := Cursor.isAt_iff.mp hat
    have hlen : (c.advance 1).rest.length + 1 = c.rest.length := by
      rw [Cursor.rest_advance, List.length_drop, hr, List.length_cons]
      omega
    rw [expr?_of_paren (marks_false c) hat, paren]
    dsimp only
    rw [hadvance, if_pos (by simp [hclosed, hsep]), groupVariant, hadvance,
      ReadsChains.chains_eq (by omega) hmembers fuel (by omega)]

end

/-! ## The reader returns the expressions of a derivation -/

theorem length_of_isAt {c : Cursor} {ch : Char} (hat : c.isAt ch = true) :
    (c.advance 1).rest.length + 1 = c.rest.length := by
  obtain ⟨r, hr⟩ := Cursor.isAt_iff.mp hat
  rw [Cursor.rest_advance, List.length_drop, hr, List.length_cons]
  omega

theorem Marks.length_le {important : Bool} {c d : Cursor} (h : Marks important c d) :
    d.rest.length ≤ c.rest.length := by
  have := h.passes.length
  omega

/-- A parenthesis that is no variant is a group. -/
theorem paren_of_group {sep : Separator} {inGroup important : Bool} {c start d : Cursor}
    {members : List Expr} {fuel : Nat} (hvariant : (important || !isVariant sep start) = true)
    (hmembers : exprs sep true fuel (start.advance 1) = (members, d)) :
    paren sep inGroup important c (fuel + 1) start =
      if d.isAt ')' then
        (.group (c.upTo (takeBang (d.advance 1)).2) members
          ((takeBang (d.advance 1)).1 || important) true, (takeBang (d.advance 1)).2)
      else (.group (c.upTo d) members important false, d) := by
  have hnot : ¬ (!important && (Brackets.closing start).closed &&
      sep.startsIn (start.advance (Brackets.closing start).length).rest) = true := by
    rw [Bool.and_assoc]
    show ¬ (!important && isVariant sep start) = true
    cases important <;> simp_all
  rw [paren]
  dsimp only
  rw [if_neg hnot, hmembers]

/-- A bracket that is no variant is a property. -/
theorem bracket_of_property {sep : Separator} {inGroup important : Bool} {c start : Cursor}
    (hvariant : (important || !isVariant sep start) = true) (fuel : Nat) :
    bracket sep inGroup important c (fuel + 1) start =
      let k := Brackets.closing start
      let after := start.advance k.length
      let (marked, after) := if k.closed then takeBang after else (false, after)
      (.property (c.upTo after) (Brackets.inner start k) (marked || important) k.closed,
        after) := by
  have hnot : ¬ (!important && (Brackets.closing start).closed &&
      sep.startsIn (start.advance (Brackets.closing start).length).rest) = true := by
    rw [Bool.and_assoc]
    show ¬ (!important && isVariant sep start) = true
    cases important <;> simp_all
  rw [bracket]
  dsimp only
  rw [if_neg hnot]

mutual

/-- The reader returns the expression of a derivation. -/
theorem Reads.expr?_eq {sep : Separator} {inGroup : Bool} {c d : Cursor} {e : Expr} :
    Reads sep inGroup c e d → ∀ fuel, 3 * c.rest.length + 2 ≤ fuel →
      expr? sep inGroup fuel c = some (e, d)
  | .stray hend hstray, fuel, hfuel => by
    obtain ⟨k, rfl⟩ : ∃ k, fuel = k + 2 := ⟨fuel - 2, by omega⟩
    exact expr?_of_stray hend hstray k
  | .utility hmarks hread hsep, fuel, hfuel => by
    obtain ⟨k, rfl⟩ : ∃ k, fuel = k + 2 := ⟨fuel - 2, by omega⟩
    rw [expr?_of_head hmarks hread, name, hread]
    dsimp only
    rw [if_neg]
    intro h
    obtain ⟨himportant, hstarts⟩ := Bool.and_eq_true_iff.mp h
    rw [hstarts] at hsep
    simp_all
  | .property hmarks hat hvariant hd hclosed, fuel, hfuel => by
    obtain ⟨k, rfl⟩ : ∃ k, fuel = k + 2 := ⟨fuel - 2, by omega⟩
    rw [expr?_of_bracket hmarks hat, bracket_of_property hvariant]
    dsimp only
    rw [hclosed, if_pos rfl, hd]
  | @Reads.openProperty _ _ important _ start _ hmarks hat hd hclosed, fuel, hfuel => by
    obtain ⟨k, rfl⟩ : ∃ k, fuel = k + 2 := ⟨fuel - 2, by omega⟩
    have hvariant : (important || !isVariant sep start) = true := by
      rw [isVariant, hclosed]
      simp
    rw [expr?_of_bracket hmarks hat, bracket_of_property hvariant]
    dsimp only
    rw [hclosed, if_neg (by decide), hd]
    rfl
  | .group hmarks hat hvariant hmembers hclose he, fuel, hfuel => by
    obtain ⟨k, rfl⟩ : ∃ k, fuel = k + 2 := ⟨fuel - 2, by omega⟩
    have hlen := length_of_isAt hat
    have hle := hmarks.length_le
    have ih := ReadsAll.exprs_eq hmembers k (by omega)
    rw [expr?_of_paren hmarks hat, paren_of_group hvariant ih, if_pos hclose, he]
  | .openGroup hmarks hat hvariant hmembers hclose, fuel, hfuel => by
    obtain ⟨k, rfl⟩ : ∃ k, fuel = k + 2 := ⟨fuel - 2, by omega⟩
    have hlen := length_of_isAt hat
    have hle := hmarks.length_le
    have ih := ReadsAll.exprs_eq hmembers k (by omega)
    rw [expr?_of_paren hmarks hat, paren_of_group hvariant ih,
      if_neg (by rw [hclose]; decide)]
  | .bare hv hsep he hgap, fuel, hfuel => by
    obtain ⟨k, rfl⟩ : ∃ k, fuel = k + 2 := ⟨fuel - 2, by omega⟩
    rw [expr?_of_variant hv hsep (by omega), he, applied_of_gap hgap]
  | .span hv hsep he hgap hchild, fuel, hfuel => by
    obtain ⟨t, hne, hp, -, -⟩ := hv.laid (Nat.le_refl 1)
    have hpos := List.length_pos_of_ne_nil hne
    have hlength := hp.length
    have hless := congrArg (fun e : Cursor => e.rest.length) he
    simp only [Cursor.rest_advance, List.length_drop] at hless
    obtain ⟨k, rfl⟩ : ∃ k, fuel = k + 3 := ⟨fuel - 3, by omega⟩
    have ih := Reads.expr?_eq hchild k (by omega)
    rw [expr?_of_variant hv hsep (by omega), he, applied_of_expr hgap ih]

/-- The reader returns the expressions of a derivation. -/
theorem ReadsAll.exprs_eq {sep : Separator} {inGroup : Bool} {c d : Cursor} {es : List Expr} :
    ReadsAll sep inGroup c es d → ∀ fuel, 3 * c.rest.length + 3 ≤ fuel →
      exprs sep inGroup fuel c = (es, d)
  | .done hend, fuel, hfuel => by
    obtain ⟨k, rfl⟩ : ∃ k, fuel = k + 1 := ⟨fuel - 1, by omega⟩
    rw [exprs]
    dsimp only
    rw [expr?_of_atEnd hend]
  | .next hfirst hrest, fuel, hfuel => by
    obtain ⟨k, rfl⟩ : ∃ k, fuel = k + 1 := ⟨fuel - 1, by omega⟩
    obtain ⟨b, hp, -, -⟩ := Cursor.passes_skipBlanks c
    obtain ⟨t, hne, hp', -⟩ := hfirst.laid
    have hpos := List.length_pos_of_ne_nil hne
    have hlength := hp.length
    have hlength' := hp'.length
    rw [exprs]
    dsimp only
    rw [Reads.expr?_eq hfirst k (by omega)]
    dsimp only
    rw [ReadsAll.exprs_eq hrest k (by omega)]

end

/-! ## Every place has a derivation -/

theorem startsIn_length_pos {sep : Separator} {t : Text} (h : sep.startsIn t = true) :
    1 ≤ t.length := by
  obtain ⟨u, rfl⟩ := sep.startsIn_iff.mp h
  have := sep.length_pos
  rw [List.length_append]
  omega

/-- A variant in front of its separator begins a span. -/
theorem exists_reads_of_variant {sep : Separator} {inGroup : Bool} {c d : Cursor} {v : Variant}
    (hv : ReadsVariant sep 1 c v d) (hsep : sep.startsIn d.rest = true)
    (hchild : ∀ e : Cursor, e.rest.length < c.rest.length → ¬ AtEnd inGroup e →
      ∃ child f, Reads sep inGroup e child f) :
    ∃ e f, Reads sep inGroup c e f := by
  obtain ⟨t, hne, hp, -, -⟩ := hv.laid (Nat.le_refl 1)
  have hpos := List.length_pos_of_ne_nil hne
  have hlength := hp.length
  cases hgap : (d.advance sep.text.length).isAtGap ||
      (d.advance sep.text.length).isAt ')' with
  | true => exact ⟨_, _, .bare hv hsep rfl hgap⟩
  | false =>
    obtain ⟨hgap', hclose⟩ := Bool.or_eq_false_iff.mp hgap
    have hend : ¬ AtEnd inGroup (d.advance sep.text.length) := by
      rintro (hnil | ⟨-, hat⟩)
      · rw [Cursor.isAtGap, hnil] at hgap'
        exact absurd hgap' (by decide)
      · rw [hclose] at hat
        exact absurd hat (by decide)
    have hless : (d.advance sep.text.length).rest.length < c.rest.length := by
      rw [Cursor.rest_advance, List.length_drop]
      omega
    obtain ⟨child, f, hread⟩ := hchild _ hless hend
    exact ⟨_, _, .span hv hsep rfl hgap hread⟩

mutual

theorem exists_reads (sep : Separator) (inGroup : Bool) (c : Cursor)
    (hend : ¬ AtEnd inGroup c) : ∃ e d, Reads sep inGroup c e d := by
  have child : ∀ e : Cursor, e.rest.length < c.rest.length → ¬ AtEnd inGroup e →
      ∃ child f, Reads sep inGroup e child f :=
    fun e hless he => exists_reads sep inGroup e he
  by_cases hstray : AtStray sep c
  · exact ⟨_, _, .stray hend hstray⟩
  -- with or without a mark of importance there is a name or a bracket
  obtain ⟨important, start, hmarks, hshape⟩ : ∃ important start, Marks important c start ∧
      ¬ (Head.read? sep start = none ∧ start.isAt '(' = false ∧ start.isAt '[' = false) := by
    by_contra hnone
    refine hstray fun important start hmarks => ?_
    by_contra hshape
    exact hnone ⟨important, start, hmarks, hshape⟩
  have hle := hmarks.length_le
  cases hread : Head.read? sep start with
  | some r =>
    obtain ⟨head, d⟩ := r
    cases hsep : important || !sep.startsIn d.rest with
    | true => exact ⟨_, _, .utility hmarks hread hsep⟩
    | false =>
      obtain ⟨rfl, hstarts⟩ : important = false ∧ sep.startsIn d.rest = true := by
        simpa using hsep
      obtain rfl : c = start := hmarks
      exact exists_reads_of_variant (.named hread (startsIn_length_pos hstarts)) hstarts child
  | none =>
    cases hparen : start.isAt '(' with
    | true =>
      have hless := length_of_isAt hparen
      cases hvariant : important || !isVariant sep start with
      | true =>
        obtain ⟨members, d, hmembers⟩ := exists_readsAll sep true (start.advance 1)
        cases hclose : d.isAt ')' with
        | true => exact ⟨_, _, .group hmarks hparen hvariant hmembers hclose rfl⟩
        | false => exact ⟨_, _, .openGroup hmarks hparen hvariant hmembers hclose⟩
      | false =>
        obtain ⟨rfl, hclosed, hsep⟩ : important = false ∧ (Brackets.closing start).closed = true ∧
            sep.startsIn (start.advance (Brackets.closing start).length).rest = true := by
          simpa [isVariant] using hvariant
        obtain rfl : c = start := hmarks
        obtain ⟨members, hmembers⟩ := exists_readsChains sep
          ((c.advance (Brackets.closing c).length).rest.length + 1) (Nat.le_add_left 1 _)
          (c.advance 1)
        exact exists_reads_of_variant
          (.group hparen hclosed rfl (startsIn_length_pos hsep) hmembers) hsep child
    | false =>
      have hsquare : start.isAt '[' = true := by
        cases hsquare : start.isAt '[' with
        | true => rfl
        | false => exact absurd ⟨hread, hparen, hsquare⟩ hshape
      cases hclosed : (Brackets.closing start).closed with
      | false => exact ⟨_, _, .openProperty hmarks hsquare rfl hclosed⟩
      | true =>
        cases hvariant : important || !isVariant sep start with
        | true => exact ⟨_, _, .property hmarks hsquare hvariant rfl hclosed⟩
        | false =>
          obtain ⟨rfl, -, hsep⟩ : important = false ∧ (Brackets.closing start).closed = true ∧
              sep.startsIn (start.advance (Brackets.closing start).length).rest = true := by
            simpa [isVariant] using hvariant
          obtain rfl : c = start := hmarks
          exact exists_reads_of_variant (.selector hsquare rfl (startsIn_length_pos hsep)) hsep
            child
termination_by 2 * c.rest.length

/-- Every place has a derivation. -/
theorem exists_readsAll (sep : Separator) (inGroup : Bool) (c : Cursor) :
    ∃ es d, ReadsAll sep inGroup c es d := by
  obtain ⟨b, hp, -, -⟩ := Cursor.passes_skipBlanks c
  have hlength := hp.length
  by_cases hend : AtEnd inGroup c.skipBlanks
  · exact ⟨[], _, .done hend⟩
  obtain ⟨e, d, hfirst⟩ := exists_reads sep inGroup c.skipBlanks hend
  obtain ⟨t, hne, hp', -⟩ := hfirst.laid
  have hpos := List.length_pos_of_ne_nil hne
  have hlength' := hp'.length
  obtain ⟨rest, f, hrest⟩ := exists_readsAll sep inGroup d
  exact ⟨e :: rest, f, .next hfirst hrest⟩
termination_by 2 * c.rest.length + 1

end

/-! ## Whole sources -/

/-- The bound that `read` supplies is enough for any derivation. -/
theorem ReadsAll.read_eq {sep : Separator} {source : Text} {es : List Expr} {d : Cursor}
    (h : ReadsAll sep false (.atStart source) es d) : read sep source = ⟨⟨0, source⟩, es⟩ := by
  have hexprs : exprs sep false (4 * source.length + 4) (.atStart source) = (es, d) := by
    refine h.exprs_eq _ ?_
    show 3 * source.length + 3 ≤ 4 * source.length + 4
    omega
  rw [read, hexprs]

/-- What is read off a source has a derivation. -/
theorem exists_readsAll_read (sep : Separator) (source : Text) :
    ∃ d, ReadsAll sep false (.atStart source) (read sep source).exprs d := by
  obtain ⟨es, d, h⟩ := exists_readsAll sep false (.atStart source)
  exact ⟨d, by rw [h.read_eq]; exact h⟩

/-- A higher bound changes nothing. -/
theorem exprs_of_bound (sep : Separator) (source : Text) {fuel : Nat}
    (hfuel : 4 * source.length + 4 ≤ fuel) :
    (exprs sep false fuel (.atStart source)).1 = (read sep source).exprs := by
  obtain ⟨d, h⟩ := exists_readsAll_read sep source
  have hle : 3 * (Cursor.atStart source).rest.length + 3 ≤ fuel := by
    show 3 * source.length + 3 ≤ fuel
    omega
  rw [h.exprs_eq fuel hle]

/-- The expressions of a class list are laid out in its source. -/
theorem read_laid (sep : Separator) (source : Text) :
    ExprsLaid sep 0 source [] (read sep source).exprs := by
  obtain ⟨d, h⟩ := exists_readsAll_read sep source
  obtain ⟨t, hp, hend, hlaid⟩ := h.laid
  have hnil : d.rest = [] := by
    rcases hend with hnil | ⟨hgroup, -⟩
    · exact hnil
    · exact absurd hgroup (by decide)
  have hsource : source = t := by
    have := hp.rest_eq
    rwa [hnil, List.append_nil] at this
  rw [hnil, ← hsource] at hlaid
  exact hlaid

end ClassList
end UtilityCss
