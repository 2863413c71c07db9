import UtilityCss.Proofs.ClassList.HeadWithin

/-!
# Variants inside of longer sources

A variant is followed by its separator or is a member of a group, which is closed.  Either way
something of the source remains behind it, so it is found in a longer source as it was, whatever
is added on the right.  In a group this needs the closing bracket of the group: what is read
there as a variant, or as none, depends on what is in front of that bracket only.
-/

namespace UtilityCss

theorem Cursor.length_pos_of_isAt {c : Cursor} {ch : Char} (h : c.isAt ch = true) :
    1 ≤ c.rest.length :=
  List.length_pos_of_ne_nil (rest_ne_nil_of_isAt h)

namespace ClassList

variable {sep : Separator} {front back : Text} {c d : Cursor}

theorem length_le_of_startsIn {t : Text} (h : sep.startsIn t = true) :
    sep.text.length ≤ t.length := by
  obtain ⟨u, rfl⟩ := sep.startsIn_iff.mp h
  rw [List.length_append]
  exact Nat.le_add_right _ _

theorem startsIn_append {t : Text} (h : sep.startsIn t = true) (back : Text) :
    sep.startsIn (t ++ back) = true := by
  obtain ⟨u, rfl⟩ := sep.startsIn_iff.mp h
  exact sep.startsIn_iff.mpr ⟨u ++ back, by rw [List.append_assoc]⟩

/-- In a group a separator is found as it was. -/
theorem startsIn_of_encloses {stop : Nat} {body : Text} (h : c.Encloses stop body) (back : Text) :
    sep.startsIn (c.rest ++ back) = sep.startsIn c.rest := by
  obtain ⟨close, after, hc, hclose, -⟩ := h
  have hsep := (Cursor.Encloses.of_isClosing hclose).2
  rw [hc, List.append_assoc, List.cons_append, sep.startsIn_append_cons hsep,
    sep.startsIn_append_cons hsep]

theorem ne_nil_of_encloses {stop : Nat} {body : Text} (h : c.Encloses stop body) : c.rest ≠ [] := by
  obtain ⟨close, after, hc, -⟩ := h
  simp [hc]

/-- There is no variant in the longer source where there was none. -/
theorem Unlinked.within (hfront : SetOff front) {stop : Nat} {body : Text}
    (hbody : c.Encloses stop body) (h : Unlinked sep stop c) : Unlinked sep (stop + back.length) (c.within front back) := by
  have hat : ∀ {ch : Char}, parts ch = false → (c.within front back).isAt ch = c.isAt ch :=
    fun hch => Cursor.isAt_within (Or.inr (ne_nil_of_encloses hbody)) hch
  constructor
  · intro hsquare
    rw [hat (by decide)] at hsquare
    exact Brackets.length_advance_within hfront hbody.stop_pos fun _ => h.selector hsquare
  · intro hparen _
    rw [hat (by decide)] at hparen
    exact Brackets.length_advance_within hfront hbody.stop_pos (h.group hparen)
  · intro head' d' hread'
    exact Head.length_read?_within hfront hbody h.named hread'

theorem ChainEnds.within (hfront : SetOff front) {stop : Nat} {body : Text}
    (hbody : c.Encloses stop body) (h : ChainEnds sep stop c) : ChainEnds sep (stop + back.length) (c.within front back) := by
  rcases h with hlen | hgap | hnone
  · left
    rw [Cursor.rest_within, List.length_append]
    omega
  · right
    left
    rw [Cursor.isAtGap_within (Or.inr (ne_nil_of_encloses hbody)), hgap]
  · exact Or.inr (Or.inr (hnone.within hfront hbody))

theorem roomLength_within (stop : Nat) :
    roomLength (stop + back.length) (c.within front back) = roomLength stop c := by
  unfold roomLength
  rw [Cursor.rest_within, List.length_append, Nat.add_sub_add_right,
    List.take_append_of_le_length (Nat.sub_le _ _)]

mutual

/-- A variant is found in the longer source as it was. -/
theorem ReadsVariant.within (hfront : SetOff front) {stop : Nat} (hstop : 1 ≤ stop) {c d : Cursor}
    {v : Variant} :
    ReadsVariant sep stop c v d → Holds back d.rest →
      ReadsVariant sep (stop + back.length) (c.within front back) (v.shift (Text.bytes front))
        (d.within front back)
  | .named hread hd, hback => by
    obtain ⟨-, -, -, -, hclosed, -⟩ := Head.read?_closed hread (by omega)
    rw [Variant.shift, ← Cursor.upTo_within]
    refine .named (Head.read?_within hfront hread hback (Or.inl hclosed)) ?_
    rw [Cursor.rest_within, List.length_append]
    omega
  | .selector hat hadvance hd, _ => by
    have hclosed := closed_of_stop (by decide) hat hadvance (by omega)
    have hk : Brackets.closing (c.within front back) = Brackets.closing c :=
      Brackets.closing_within hfront (Or.inl hclosed)
    have hle := Brackets.length_closing_le c
    have hne := Cursor.rest_ne_nil_of_isAt hat
    rw [Variant.shift, ← Cursor.ahead_within hle, ← Brackets.inner_within hne hle, ← hk]
    refine .selector ((Cursor.isAt_within (Or.inr hne) (by decide)).trans hat) ?_ ?_
    · rw [hk, Cursor.advance_within hle, hadvance]
    · rw [Cursor.rest_within, List.length_append]
      omega
  | .group hat hclosed hadvance hd hmembers, _ => by
    have hk : Brackets.closing (c.within front back) = Brackets.closing c :=
      Brackets.closing_within hfront (Or.inl hclosed)
    have hle := Brackets.length_closing_le c
    have hbody := encloses_of_closed (by decide) hat hadvance hclosed
    have hmembers' := ReadsChains.within hfront hbody hmembers
    rw [← Cursor.advance_within (Cursor.length_pos_of_isAt hat), Nat.add_right_comm,
      ← List.length_append, ← Cursor.rest_within] at hmembers'
    rw [Variant.shift, ← Cursor.ahead_within hle, ← hk]
    refine .group ?_ (hk ▸ hclosed) ?_ ?_ hmembers'
    · exact (Cursor.isAt_within (Or.inr (Cursor.rest_ne_nil_of_isAt hat)) (by decide)).trans hat
    · rw [hk, Cursor.advance_within hle, hadvance]
    · rw [Cursor.rest_within, List.length_append]
      omega

theorem ReadsChain.within (hfront : SetOff front) {stop : Nat} {c d : Cursor}
    {links : List Variant} {body : Text} (hbody : c.Encloses stop body) : ReadsChain sep stop c links d →
      ReadsChain sep (stop + back.length) (c.within front back)
        (chainShift (Text.bytes front) links) (d.within front back)
  | .done hend => .done (hend.within hfront hbody)
  | .last hlen hgap hv hsep => by
    obtain ⟨t, -, hp, hd, -⟩ := hv.laid hbody.stop_pos
    obtain ⟨u, -, hu⟩ := hbody.advance hp hd
    refine .last ?_ ((Cursor.isAtGap_within (Or.inr (ne_nil_of_encloses hbody))).trans hgap)
      (ReadsVariant.within hfront hbody.stop_pos hv (holds_of_encloses hu))
      ((startsIn_of_encloses hu back).trans hsep)
    rw [Cursor.rest_within, List.length_append]
    omega
  | .link (d := d) hlen hgap hv hsep hlinks => by
    obtain ⟨t, -, hp, hd, -⟩ := hv.laid hbody.stop_pos
    obtain ⟨u, -, hu⟩ := hbody.advance hp hd
    obtain ⟨w, -, hw⟩ := hu.advance (Cursor.passes_advance d sep.text.length) (hu.separator hsep)
    have hlinks' := ReadsChain.within hfront hw hlinks
    rw [← Cursor.advance_within (length_le_of_startsIn hsep)] at hlinks'
    refine .link ?_ ((Cursor.isAtGap_within (Or.inr (ne_nil_of_encloses hbody))).trans hgap)
      (ReadsVariant.within hfront hbody.stop_pos hv (holds_of_encloses hu))
      (startsIn_append hsep back) hlinks'
    rw [Cursor.rest_within, List.length_append]
    omega

theorem ReadsChains.within (hfront : SetOff front) {stop : Nat} {c : Cursor}
    {members : List (List Variant)} {body : Text} (hbody : c.Encloses stop body) : ReadsChains sep stop c members →
      ReadsChains sep (stop + back.length) (c.within front back)
        (membersShift (Text.bytes front) members)
  | .done hend => by
    refine .done (Nat.le_trans Cursor.length_skipBlanks_within ?_)
    omega
  | .stray hlen hnone hmembers => by
    obtain ⟨b, hp, -, -⟩ := Cursor.passes_skipBlanks c
    obtain ⟨u, -, hu⟩ := hbody.advance hp hbody.blanks
    have hskip : (c.within front back).skipBlanks = c.skipBlanks.within front back :=
      Cursor.skipBlanks_within (Or.inl (ne_nil_of_encloses hu))
    have hroom := roomLength_le hlen
    have hle : roomLength stop c.skipBlanks ≤ c.skipBlanks.rest.length := by omega
    obtain ⟨w, -, hw⟩ := hu.advance
      (Cursor.passes_advance c.skipBlanks (roomLength stop c.skipBlanks))
      (by rw [Cursor.rest_advance, List.length_drop]; omega)
    have hmembers' := ReadsChains.within hfront hw hmembers
    have hahead : (c.within front back).skipBlanks.ahead (roomLength stop c.skipBlanks) =
        (c.skipBlanks.ahead (roomLength stop c.skipBlanks)).shift (Text.bytes front) := by
      rw [hskip, Cursor.ahead_within hle]
    have hroom' : roomLength (stop + back.length) (c.within front back).skipBlanks =
        roomLength stop c.skipBlanks := by
      rw [hskip, roomLength_within]
    rw [← Cursor.advance_within hle, ← hskip, ← hroom'] at hmembers'
    have hstray : ReadsChains sep (stop + back.length) (c.within front back) _ :=
      .stray (by rw [hskip, Cursor.rest_within, List.length_append]; omega)
        (hskip ▸ hnone.within hfront hu) hmembers'
    rw [hroom', hahead] at hstray
    exact hstray
  | .chain (d := d) hlen hlinks hmembers => by
    obtain ⟨b, hp, -, -⟩ := Cursor.passes_skipBlanks c
    obtain ⟨u, -, hu⟩ := hbody.advance hp hbody.blanks
    have hskip : (c.within front back).skipBlanks = c.skipBlanks.within front back :=
      Cursor.skipBlanks_within (Or.inl (ne_nil_of_encloses hu))
    obtain ⟨t, -, hp', hd, -⟩ := ReadsChain.laid hu hlinks
    obtain ⟨w, -, hw⟩ := hu.advance hp' hd
    have hlinks' := ReadsChain.within hfront hu hlinks
    rw [← hskip] at hlinks'
    refine .chain ?_ hlinks' (ReadsChains.within hfront hw hmembers)
    rw [hskip, Cursor.rest_within, List.length_append]
    omega

end

/-- A variant is the same variant whatever has to be left behind it, as long as it is. -/
theorem ReadsVariant.of_stop {stop stop' : Nat} {v : Variant} (h : ReadsVariant sep stop c v d)
    (hd : stop' ≤ d.rest.length) : ReadsVariant sep stop' c v d := by
  cases h with
  | named hread _ => exact .named hread hd
  | selector hat hadvance _ => exact .selector hat hadvance hd
  | group hat hclosed hadvance _ hmembers => exact .group hat hclosed hadvance hd hmembers

/-- In front of a separator. -/
theorem ReadsVariant.within_one (hfront : SetOff front) {v : Variant}
    (h : ReadsVariant sep 1 c v d) (hsep : sep.startsIn d.rest = true) (back : Text) :
    ReadsVariant sep 1 (c.within front back) (v.shift (Text.bytes front))
      (d.within front back) := by
  refine (h.within hfront (Nat.le_refl 1) (holds_of_startsIn hsep)).of_stop ?_
  rw [Cursor.rest_within, List.length_append]
  have := startsIn_length_pos hsep
  omega

end ClassList
end UtilityCss
