import UtilityCss.Proofs.ClassList.Chain
import UtilityCss.Proofs.ClassList.Placement
import UtilityCss.Proofs.ClassList.VariantWithin

/-!
# Names behind chains of variants

A chain of variants ends with its last separator, so each of its variants is read as before when
a text is put behind it.  If the text begins with something that can be read there, the innermost
variant is applied to that, where before it was applied to nothing.  For a plain name that is the
utility of that name, because reading it does not look back.
-/

namespace UtilityCss

namespace ClassList

variable {sep : Separator} {c d f : Cursor} {back : Text} {inner : Expr}

/-! ## Plain names -/

/-- The text is a name and nothing more. -/
structure IsName (sep : Separator) (t : Text) : Prop where
  ne_nil : t ≠ []
  length : nameLength sep t = t.length

instance (sep : Separator) (t : Text) : Decidable (IsName sep t) :=
  decidable_of_iff (t ≠ [] ∧ nameLength sep t = t.length)
    ⟨fun h => ⟨h.1, h.2⟩, fun h => ⟨h.1, h.2⟩⟩

/-- The head that a plain name is. -/
def plainHead (start : Nat) (name : Text) : Head :=
  .plain ⟨start, name⟩ (Head.ownModifier? ⟨start, name⟩)

/-- The utility of a plain name. -/
def plainUtility (start : Nat) (name : Text) : Expr :=
  .utility ⟨start, name⟩ (plainHead start name) false

theorem closed_plainHead (start : Nat) (name : Text) : (plainHead start name).closed = true := by
  have hmodifier : (Head.ownModifier? ⟨start, name⟩).all Modifier.closed = true := by
    unfold Head.ownModifier?
    split <;> rfl
  rw [plainHead, Head.closed, Head.modifier, hmodifier]
  rfl

theorem laid_plainHead (start : Nat) (name after : Text) :
    (plainHead start name).Laid start name after :=
  ⟨rfl, Head.ownModifier?_laid start name after⟩

theorem plainUtility_shift (n start : Nat) (name : Text) :
    (plainUtility start name).shift n = plainUtility (start + n) name := by
  rw [plainUtility, plainHead, Expr.shift, Head.shift, ← Head.ownModifier?_shift]
  rfl

theorem IsName.isNameChar {t r : Text} {ch : Char} (h : IsName sep t) (ht : t = ch :: r) :
    isNameChar ch = true := by
  have hlength := h.length
  cases hch : ClassList.isNameChar ch with
  | true => rfl
  | false =>
    rw [ht, nameLength, hch] at hlength
    exact absurd hlength (by simp)

/-- At a plain name its utility is read. -/
theorem IsName.reads (h : IsName sep c.rest) (inGroup : Bool) :
    ∃ d, Reads sep inGroup c (plainUtility c.offset c.rest) d ∧ d.rest = [] := by
  have hp : c.Passes c.rest (c.advance c.rest.length) :=
    Cursor.passes_advance_of_append (List.append_nil _).symm
  have hend : (c.advance c.rest.length).rest = [] := by rw [Cursor.rest_advance, List.drop_length]
  have hat : ∀ ch, (c.advance c.rest.length).isAt ch = false := fun ch => by
    rw [Cursor.isAt, hend]
    rfl
  have hbang : takeBang (c.advance c.rest.length) = (false, c.advance c.rest.length) := by
    rw [takeBang, hat]
    rfl
  have hread := Head.read?_plain (.of_length (List.append_nil _).symm h.ne_nil h.length) (hat '[')
  have hreads : Reads sep inGroup c _ _ :=
    .utility (marks_false c) hread (by rw [hend, sep.startsIn_nil]; rfl)
  rw [hbang, hp.upTo] at hreads
  exact ⟨_, hreads, hend⟩

/-- A plain name is read as its utility. -/
theorem IsName.read_eq {t : Text} (h : IsName sep t) : (read sep t).exprs = [plainUtility 0 t] := by
  obtain ⟨d, hreads, hd⟩ := IsName.reads (c := .atStart t) h false
  refine hreads.read_eq hd ?_
  have hskip := Cursor.passes_skipBlanks_of_append (c := .atStart t) (List.nil_append _).symm
    (by simp) fun x v hx => (isNameChar_iff.mp (h.isNameChar hx)).1
  exact hskip.1.eq_of_nil

/-! ## Behind a chain -/

/-- An expression behind the separator of the innermost variant of a spine comes out inside of
it. -/
theorem Reads.behind (hgap : ((d.within [] back).isAtGap || (d.within [] back).isAt ')') = false)
    (hinner : Reads sep false (d.within [] back) inner f) : ∀ {vs : List Variant} {e : Expr}
      {c : Cursor}, Around none vs (some e) → Reads sep false c e d →
        ∃ outer, Reads sep false (c.within [] back) outer f ∧ Around (some inner) vs (some outer)
  | _, _, c, .outside (v := v) (e := none) hnone, hreads => by
    obtain rfl := hnone.eq_nil_of_none
    cases hreads with
    | bare hv hsep hd _ =>
      have hv' := hv.within_one apart_nil.setOff hsep back
      rw [Text.bytes_nil, Variant.shift_zero] at hv'
      exact ⟨_, .span hv' (startsIn_append hsep back)
        (by rw [Cursor.advance_within (length_le_of_startsIn hsep), hd]) hgap hinner,
        .outside .here⟩
  | _, _, c, .outside (v := v) (e := some child) hchild, hreads => by
    cases hreads with
    | @span _ _ a b _ _ _ hv hsep hb hgap' hreads =>
      obtain ⟨outer, houter, haround⟩ := Reads.behind hgap hinner hchild hreads
      have hv' := hv.within_one apart_nil.setOff hsep back
      rw [Text.bytes_nil, Variant.shift_zero] at hv'
      have hne : b.rest ≠ [] := by
        intro hnil
        rw [Cursor.isAtGap, hnil] at hgap'
        exact absurd hgap' (by simp)
      exact ⟨_, .span hv' (startsIn_append hsep back)
        (by rw [Cursor.advance_within (length_le_of_startsIn hsep), hb])
        (by rw [Cursor.isAtGap_within (Or.inr hne), Cursor.isAt_within (Or.inr hne) (by decide),
          hgap']) houter, .outside haround⟩

/-- The expression of a chain is all of its text. -/
theorem IsChain.source_eq {t : Text} {vs : List Variant} {e : Expr} (h : IsChain sep t vs)
    (hread : (read sep t).exprs = [e]) : e.source = ⟨0, t⟩ := by
  have hlaid := read_laid sep t
  rw [hread] at hlaid
  obtain ⟨b, te, u, ht, hb, he, hblank⟩ := hlaid
  obtain rfl := Text.eq_nil_of_trim h.trimmed ht hblank
  rw [List.append_nil] at ht
  obtain rfl := Text.eq_nil_of_trim_front h.trimmed ht hb
  rw [he.source_eq, ht]
  rfl

/-- A plain name behind a chain is what the chain is applied to. -/
theorem IsChain.readsInside {t u : Text} {vs : List Variant} (h : IsChain sep t vs)
    (hu : IsName sep u) : ReadsInside sep t vs u := by
  obtain ⟨e, hread, haround⟩ := h.reads
  cases e with
  | none =>
    obtain rfl := haround.eq_nil_of_none
    obtain rfl := h.eq_nil
    refine ⟨some (plainUtility 0 u), some (plainUtility 0 u), hu.read_eq, hu.read_eq, ?_⟩
    rw [Option.map_some, plainUtility_shift]
    exact .here
  | some e =>
    obtain ⟨hskip, d, hreads, hd⟩ := exists_reads_of_read hread (h.source_eq hread)
    obtain ⟨w, hne, hp, -⟩ := hreads.laid
    have htw : t = w ++ d.rest := hp.rest_eq
    rw [hd, List.append_nil] at htw
    have hoffset : (d.within [] u).offset = Text.bytes t := by
      rw [Cursor.offset_within, hp.offset, ← htw]
      simp [Cursor.atStart, Cursor.offset]
    have hrest : (d.within [] u).rest = u := by rw [Cursor.rest_within, hd, List.nil_append]
    obtain ⟨f, hname, hf⟩ := IsName.reads (hrest.symm ▸ hu) false
    rw [hoffset, hrest] at hname
    have hgap : ((d.within [] u).isAtGap || (d.within [] u).isAt ')') = false := by
      obtain ⟨ch, r, hch⟩ := List.exists_cons_of_ne_nil hu.ne_nil
      obtain ⟨hblank, -, hclose, -⟩ := isNameChar_iff.mp (hu.isNameChar hch)
      have hparen : ch ≠ ')' := by
        rintro rfl
        exact absurd hclose (by decide)
      rw [Cursor.isAtGap, Cursor.isAt, hrest, hch]
      simp [hblank, hparen]
    obtain ⟨outer, houter, haround'⟩ := Reads.behind hgap hname haround hreads
    refine ⟨some (plainUtility 0 u), some outer, hu.read_eq, ?_, ?_⟩
    · refine Reads.read_eq (x := t ++ u) houter hf ?_
      have hsource : Cursor.atStart (t ++ u) = (Cursor.atStart t).within [] u := rfl
      rw [hsource, Cursor.skipBlanks_within (Or.inl ?_), hskip]
      rw [hskip]
      show t ≠ []
      rw [htw]
      exact hne
    · rwa [Option.map_some, plainUtility_shift, Nat.zero_add]

end ClassList
end UtilityCss
