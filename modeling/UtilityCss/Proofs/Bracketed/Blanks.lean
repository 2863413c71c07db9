import UtilityCss.Evaluation.Utility
import UtilityCss.Proofs.Bracketed
import UtilityCss.Proofs.Bracketed.Address
import UtilityCss.Proofs.Theme.Calls

/-!
# Blanks behind a bracketed value

A bracket that is not closed takes everything up to the end of the source, the blanks there
included.  They do not matter for a value: a theme call that is open takes them up as well and
trims its arguments, and otherwise they stay behind the value until its kind trims it.
-/

namespace UtilityCss

variable {b : Text} (hb : ∀ ch ∈ b, Text.isBlank ch = true)

namespace Text

include hb

/-- A text begins as before when blanks are added at its end, if there are no blanks in what it
begins with. -/
theorem startsWith_append_blanks : ∀ {part : Text}, (∀ ch ∈ part, isBlank ch = false) →
    ∀ t : Text, startsWith (t ++ b) part = startsWith t part
  | [], _, _ => rfl
  | a :: part, hpart, [] => by
    cases b with
    | nil => rfl
    | cons x b =>
      have hne : a ≠ x := fun heq => not_mem_blanks hb (hpart a List.mem_cons_self)
        (heq ▸ List.mem_cons_self)
      show (if a = x then dropLead? part b else none).isSome = false
      rw [if_neg hne]
      rfl
  | a :: part, hpart, c :: t => by
    have ih := startsWith_append_blanks (List.forall_mem_cons.mp hpart).2 t
    rw [startsWith, startsWith] at ih ⊢
    rw [List.cons_append, dropLead?, dropLead?]
    split
    · exact ih
    · rfl

/-- The same of what the text includes. -/
theorem includes_append_blanks {part : Text} (hne : part ≠ [])
    (hpart : ∀ ch ∈ part, isBlank ch = false) :
    ∀ t : Text, includes (t ++ b) part = includes t part
  | [] => by
    have hnone : includes b part = false := by
      rw [Bool.eq_false_iff, ne_eq, includes_iff]
      rintro ⟨x, y, rfl⟩
      obtain ⟨ch, hch⟩ := List.exists_mem_of_ne_nil part hne
      exact not_mem_blanks hb (hpart ch hch) (by simp [hch])
    rw [List.nil_append, hnone]
    cases part with
    | nil => exact absurd rfl hne
    | cons => rfl
  | c :: t => by
    have hstarts := startsWith_append_blanks hb hpart (c :: t)
    rw [List.cons_append] at hstarts ⊢
    rw [Bracketed.includes_cons, Bracketed.includes_cons, hstarts,
      includes_append_blanks hne hpart t]

/-- Blanks at the end stay behind the first cut. -/
theorem cutAt?_append_blanks {p : Char → Bool} (hp : ∀ ch, isBlank ch = true → p ch = false) :
    ∀ t : Text, cutAt? p (t ++ b) = (cutAt? p t).map fun cut => (cut.1, cut.2 ++ b)
  | [] => by
    induction b with
    | nil => rfl
    | cons x b ih =>
      obtain ⟨hx, hrest⟩ := List.forall_mem_cons.mp hb
      have ih : cutAt? p b = none := ih hrest
      show (if p x then some ([], b) else (cutAt? p b).map _) = none
      rw [hp x hx, if_neg Bool.false_ne_true, ih]
      rfl
  | c :: t => by
    rw [List.cons_append, cutAt?, cutAt?, cutAt?_append_blanks hp t]
    split
    · rfl
    · rw [Option.map_map, Option.map_map]
      rfl

end Text

namespace Brackets

/-- Blanks close nothing. -/
theorem isClosing_blanks (hb : ∀ ch ∈ b, Text.isBlank ch = true) :
    ∀ ch ∈ b, isClosing ch = false := by
  intro ch hch
  cases hclose : isClosing ch with
  | false => rfl
  | true =>
    have hblank := hb ch hch
    rcases isClosing_cases hclose with rfl | rfl | rfl <;> exact absurd hblank (by decide)

theorem closing_of_open {c : Cursor} (h : (closing c).closed = false) :
    closing c = ⟨c.rest.length, false⟩ := by
  unfold closing at h ⊢
  split at h
  · cases h
  · rfl

/-- What is not closed holds everything behind the opening bracket, and nothing is left behind. -/
theorem inner_of_open {c : Cursor} (h : (closing c).closed = false) :
    (inner c (closing c)).text = c.rest.drop 1 ∧ (c.advance (closing c).length).rest = [] := by
  rw [closing_of_open h]
  refine ⟨?_, List.drop_length⟩
  show (c.rest.drop 1).take (c.rest.length - 1) = c.rest.drop 1
  rw [← List.length_drop, List.take_length]

end Brackets

include hb

/-! ## Theme calls -/

/-- What is added at the end of a text is added to its last part. -/
theorem Split.parts_append_blanks {p : Char → Bool}
    (hp : ∀ ch, Text.isBlank ch = true → p ch = false) :
    ∀ (s : State) (t : Text), ∃ front last, parts p s t = front ++ [last] ∧
      parts p s (t ++ b) = front ++ [last ++ b]
  | s, [] => by
    have hone : ∀ {b : Text}, (∀ ch ∈ b, Text.isBlank ch = true) → ∀ s, parts p s b = [b] := by
      intro b
      induction b with
      | nil => exact fun _ _ => rfl
      | cons x b ih =>
        intro hb s
        obtain ⟨hx, hrest⟩ := List.forall_mem_cons.mp hb
        have hsplits : s.splitsAt p x = false := by rw [State.splitsAt, hp x hx]; simp
        rw [parts, hsplits, if_neg Bool.false_ne_true, ih hrest]
    exact ⟨[], [], rfl, hone hb s⟩
  | s, c :: t => by
    rw [List.cons_append, parts, parts]
    split
    · obtain ⟨front, last, ht, hmore⟩ := Split.parts_append_blanks hp s t
      exact ⟨[] :: front, last, by rw [ht]; rfl, by rw [hmore]; rfl⟩
    · obtain ⟨front, last, ht, hmore⟩ := Split.parts_append_blanks hp (s.next c) t
      rw [ht, hmore]
      cases front with
      | nil => exact ⟨[], c :: last, rfl, rfl⟩
      | cons part front => exact ⟨(c :: part) :: front, last, rfl, rfl⟩

namespace Theme

variable {theme : Theme}

theorem resolve?_append_blanks (path : Text) :
    theme.resolve? (path ++ b) = theme.resolve? path := by
  rw [resolve?, resolve?, Text.trim_append_blanks hb]

/-- The arguments of a call are trimmed. -/
theorem callValue_append_blanks (render : Text → Text) (arguments : Text) :
    callValue theme render (arguments ++ b) = callValue theme render arguments := by
  have hcomma : ∀ ch, Text.isBlank ch = true → decide (ch = ',') = false := by
    intro ch hch
    rw [decide_eq_false_iff_not]
    rintro rfl
    exact absurd hch (by decide)
  obtain ⟨front, last, hparts, hmore⟩ := Split.parts_append_blanks hb hcomma .top arguments
  have hparts : Split.atChar ',' arguments = front ++ [last] := hparts
  have hmore : Split.atChar ',' (arguments ++ b) = front ++ [last ++ b] := hmore
  have hpath : theme.resolve? ((front ++ [last ++ b]).headD []) =
      theme.resolve? ((front ++ [last]).headD []) := by
    cases front with
    | nil => exact resolve?_append_blanks hb last
    | cons => rfl
  have hlength : (front ++ [last ++ b]).length = (front ++ [last]).length := by simp
  unfold callValue
  rw [hparts, hmore, hpath, hlength, Text.cutAt?_append_blanks hb hcomma]
  cases theme.resolve? ((front ++ [last]).headD []) with
  | some value => rfl
  | none =>
    cases Text.cutAt? (fun x => decide (x = ',')) arguments with
    | none => rfl
    | some cut =>
      dsimp only [Option.map_some]
      rw [Text.trim_append_blanks hb]

/-- The next call is found as before. -/
theorem findCall?_append_blanks : ∀ (t before : Text), findCall? before (t ++ b) =
    (findCall? before t).map fun found => (found.1, found.2 ++ b)
  | [], before => by
    refine Bytewise.findCall?_of_none fun x y hxy => ?_
    rw [Bool.eq_false_iff, ne_eq, Text.startsWith_iff]
    rintro ⟨u, rfl⟩
    have hmem : 't' ∈ b := by
      rw [show b = x ++ (Bytewise.callLead ++ u) from hxy]
      simp [Bytewise.callLead]
    exact absurd (hb 't' hmem) (by decide)
  | c :: t, before => by
    have hlead : ∀ ch ∈ Bytewise.callLead, Text.isBlank ch = false := by decide
    have hstarts := Text.startsWith_append_blanks hb hlead (c :: t)
    rw [List.cons_append] at hstarts ⊢
    rw [Bytewise.findCall?_cons, Bytewise.findCall?_cons, hstarts, findCall?_append_blanks t]
    split <;> rfl

/-- Where calls are replaced, the blanks at the end stay there, or an open call takes them up. -/
theorem renderWithin_append_blanks : ∀ (fuel : Nat) (t : Text),
    renderWithin theme fuel (t ++ b) = renderWithin theme fuel t ∨
      renderWithin theme fuel (t ++ b) = renderWithin theme fuel t ++ b
  | 0, _ => .inr rfl
  | fuel + 1, t => by
    rw [renderWithin_succ, renderWithin_succ, findCall?_append_blanks hb]
    cases hfound : findCall? [] t with
    | none => exact .inr rfl
    | some found =>
      obtain ⟨before, call⟩ := found
      obtain ⟨-, u, rfl⟩ := Bytewise.of_findCall? hfound
      have hlead : 5 ≤ (Bytewise.callLead ++ u).length := by
        rw [List.length_append]
        exact Nat.le_add_right_of_le (by decide)
      have hwithin : (⟨before, Bytewise.callLead ++ u ++ b⟩ : Cursor).advance 5 =
          ((⟨before, Bytewise.callLead ++ u⟩ : Cursor).advance 5).within [] b := by
        rw [← Cursor.advance_within (by exact hlead), Cursor.within, List.append_nil]
      have hparen : ((⟨before, Bytewise.callLead ++ u⟩ : Cursor).advance 5).rest = '(' :: u := rfl
      dsimp only [Option.map_some]
      rw [hwithin]
      generalize (⟨before, Bytewise.callLead ++ u⟩ : Cursor).advance 5 = paren at hparen ⊢
      have hne : paren.rest ≠ [] := by rw [hparen]; exact List.cons_ne_nil _ _
      cases hclosed : (Brackets.closing paren).closed with
      | true =>
        have hle := Brackets.length_closing_le paren
        rw [Brackets.closing_within apart_nil.setOff (.inl hclosed), Brackets.inner_within hne hle,
          Cursor.advance_within hle, Cursor.rest_within]
        rcases renderWithin_append_blanks fuel (paren.advance (Brackets.closing paren).length).rest
          with h | h
        · exact .inl (by rw [h]; rfl)
        · exact .inr (by rw [h, ← List.append_assoc]; rfl)
      | false =>
        -- the call takes the blanks up
        have hopen := Brackets.closed_within apart_nil.setOff (Brackets.isClosing_blanks hb) hclosed
        obtain ⟨hinner, hrest⟩ := Brackets.inner_of_open hclosed
        obtain ⟨hinner', hrest'⟩ := Brackets.inner_of_open hopen
        rw [Cursor.rest_within, List.drop_append_of_le_length (List.length_pos_of_ne_nil hne)]
          at hinner'
        refine .inl ?_
        rw [hinner, hinner', hrest, hrest', callValue_append_blanks hb]

/-- The same whatever the depth. -/
theorem renderCalls_append_blanks (t : Text) :
    theme.renderCalls (t ++ b) = theme.renderCalls t ∨
      theme.renderCalls (t ++ b) = theme.renderCalls t ++ b := by
  have hlength : t.length < (t ++ b).length + 1 := by
    rw [List.length_append]
    omega
  rw [← renderWithin_eq_renderCalls hlength]
  exact renderWithin_append_blanks hb _ t

end Theme

/-! ## Underscores and signs -/

namespace Bracketed

/-- A call is closed as before, or the blanks behind it belong to it. -/
theorem callLength_append_blanks : ∀ (depth : Nat) (t : Text),
    callLength depth (t ++ b) = callLength depth t ∨
      callLength depth t = t.length ∧ callLength depth (t ++ b) = (t ++ b).length
  | depth, [] => by
    have hlength : ∀ {b : Text}, (∀ ch ∈ b, Text.isBlank ch = true) →
        callLength depth b = b.length := by
      intro b
      induction b with
      | nil => exact fun _ => rfl
      | cons x b ih =>
        intro hb
        obtain ⟨hx, hrest⟩ := List.forall_mem_cons.mp hb
        have hopen : x ≠ '(' := fun h => absurd (h ▸ hx) (by decide)
        have hclose : x ≠ ')' := fun h => absurd (h ▸ hx) (by decide)
        rw [callLength, if_neg hopen, if_neg hclose, ih hrest, List.length_cons]
    exact .inr ⟨rfl, hlength hb⟩
  | depth, c :: t => by
    have hnext : ∀ depth', callLength depth' (t ++ b) + 1 = callLength depth' t + 1 ∨
        callLength depth' t + 1 = (c :: t).length ∧
          callLength depth' (t ++ b) + 1 = (c :: (t ++ b)).length := by
      intro depth'
      rcases callLength_append_blanks depth' t with h | ⟨h, h'⟩
      · exact .inl (by rw [h])
      · exact .inr ⟨by rw [h, List.length_cons], by rw [h', List.length_cons]⟩
    rw [List.cons_append, callLength, callLength]
    split
    · exact hnext _
    split
    · split
      · exact .inl rfl
      · exact hnext _
    · exact hnext _

omit hb in
/-- All of a text is kept. -/
theorem spaceAfter_of_le : ∀ {kept : Nat} {t : Text}, t.length ≤ kept → spaceAfter kept t = t
  | kept, [], _ => by cases kept <;> rfl
  | kept + 1, c :: t, h => by
    rw [spaceAfter, spaceAfter_of_le (Nat.le_of_succ_le_succ h)]

theorem spaceAfter_blanks : ∀ kept : Nat, spaceAfter kept b = b := by
  induction b with
  | nil => exact fun kept => spaceAfter_of_le (Nat.zero_le kept)
  | cons x b ih =>
    obtain ⟨hx, hrest⟩ := List.forall_mem_cons.mp hb
    intro kept
    cases kept with
    | succ kept => rw [spaceAfter, ih hrest]
    | zero =>
      have hurl : Text.startsWith (x :: b) "url(" = false := by
        rw [Bool.eq_false_iff, ne_eq, Text.startsWith_iff]
        rintro ⟨u, hu⟩
        exact absurd ((List.cons.inj hu).1 ▸ hx) (by decide)
      have hunderscore : x ≠ '_' := fun h => absurd (h ▸ hx) (by decide)
      rw [spaceAfter, hurl, if_neg Bool.false_ne_true, if_neg hunderscore, ih hrest]
      rintro t rfl -
      exact absurd hx (by decide)

/-- An underscore is not among the blanks. -/
theorem eq_underscore_of_append {t v : Text} (h : t ++ b = '_' :: v) : ∃ u, t = '_' :: u := by
  cases t with
  | nil =>
    have hblank := hb '_' (by rw [show b = '_' :: v from h]; exact List.mem_cons_self)
    exact absurd hblank (by decide)
  | cons x t => exact ⟨t, by rw [(List.cons.inj h).1]⟩

/-- Where underscores are replaced, the blanks at the end stay there. -/
theorem spaceAfter_append_blanks (kept : Nat) (t : Text) :
    spaceAfter kept (t ++ b) = spaceAfter kept t ++ b := by
  fun_induction spaceAfter kept t with
  | case1 kept => exact spaceAfter_blanks hb kept
  | case2 c t kept ih => rw [List.cons_append, spaceAfter, ih]; rfl
  | case3 t ih => rw [List.cons_append, List.cons_append, spaceAfter, ih]; rfl
  | case4 c t hescape hurl ih =>
    have hstarts : Text.startsWith (c :: (t ++ b)) "url(" = true := by
      rw [← hurl]
      exact Text.startsWith_append_blanks hb (by decide) (c :: t)
    have hcall : spaceAfter (callLength 0 (c :: (t ++ b)) - 1) (t ++ b) =
        spaceAfter (callLength 0 (c :: t) - 1) t ++ b := by
      have hall : ∀ u : Text, spaceAfter ((c :: u).length - 1) u = u := fun u =>
        spaceAfter_of_le (Nat.le_refl u.length)
      rcases callLength_append_blanks hb 0 (c :: t) with h | ⟨h, h'⟩
      · rw [← List.cons_append, h, ih]
      · rw [List.cons_append] at h'
        rw [h, h', hall, hall]
    rw [List.cons_append, spaceAfter, hstarts, if_pos rfl, hcall]
    · rfl
    · intro v hc hv
      obtain ⟨u, rfl⟩ := eq_underscore_of_append hb hv
      exact hescape u hc rfl
  | case5 c t hescape hurl ih =>
    have hstarts : Text.startsWith (c :: (t ++ b)) "url(" = false := by
      rw [← Bool.eq_false_iff.mpr hurl]
      exact Text.startsWith_append_blanks hb (by decide) (c :: t)
    rw [List.cons_append, spaceAfter, hstarts, if_neg Bool.false_ne_true, ih]
    · rfl
    · intro v hc hv
      obtain ⟨u, rfl⟩ := eq_underscore_of_append hb hv
      exact hescape u hc rfl

end Bracketed

namespace Value

omit hb in
theorem Spacing.startsOperand_blank {c : Char} (hc : Text.isBlank c = true) :
    startsOperand c = false := by
  cases hnamed : Bracketed.isNamed c with
  | true => exact absurd (hc.symm.trans (Bracketed.isBlank_of_isNamed hnamed)) (by decide)
  | false =>
    have hdot : c ≠ '.' := by rintro rfl; exact absurd hc (by decide)
    have hopen : c ≠ '(' := by rintro rfl; exact absurd hc (by decide)
    simp only [Bracketed.isNamed, Bool.or_eq_false_iff] at hnamed
    simp [startsOperand, hnamed.1.1, hdot, hopen]

/-- Where signs are spaced, the blanks at the end stay there. -/
theorem Spacing.spaced_append_blanks : ∀ (s : Spacing) (t : Text),
    s.spaced (t ++ b) = s.spaced t ++ b
  | s, [] => by
    induction b generalizing s with
    | nil => rfl
    | cons x b ih =>
      obtain ⟨hx, hrest⟩ := List.forall_mem_cons.mp hb
      have hsign : ¬(x = '+' ∨ x = '-') := by
        rintro (rfl | rfl) <;> exact absurd hx (by decide)
      have hnext : ∀ s : Spacing, s.spaced b = b := fun s => ih hrest s
      show s.piece x b.head? ++ (s.step x b.head?).spaced b = x :: b
      rw [piece_of_not_sign hsign, hnext]
      rfl
  | s, c :: t => by
    -- in front of a blank a sign is no binary one, as at the end
    have hbinary : s.isBinary c (t ++ b).head? = s.isBinary c t.head? := by
      cases t with
      | cons => rfl
      | nil =>
        cases b with
        | nil => rfl
        | cons x b =>
          have hstarts : startsOperand x = false := startsOperand_blank (hb x List.mem_cons_self)
          simp [isBinary, hstarts]
    have hrest : (s.step c (t ++ b).head?).spaced t = (s.step c t.head?).spaced t := by
      cases t <;> rfl
    rw [List.cons_append, spaced, spaced, piece, piece, hbinary,
      Spacing.spaced_append_blanks _ t, hrest, List.append_assoc]

theorem spaceMath_append_blanks (t : Text) : spaceMath (t ++ b) = spaceMath t ++ b := by
  have hincludes : (mathFunctions.any fun f => Text.includes (t ++ b) (f ++ ['('])) =
      mathFunctions.any fun f => Text.includes t (f ++ ['(']) := by
    have hall : ∀ f ∈ mathFunctions, ∀ c ∈ f ++ ['('], Text.isBlank c = false := by decide
    rw [Bool.eq_iff_iff, List.any_eq_true, List.any_eq_true]
    refine exists_congr fun f => and_congr_right fun hf => ?_
    rw [Text.includes_append_blanks hb (by simp) (hall f hf)]
  rw [spaceMath_eq, spaceMath_eq, hincludes]
  split
  · exact Spacing.spaced_append_blanks hb _ t
  · rfl

end Value

/-- The value of a bracketed text has the blanks at its end as well, or none of them. -/
theorem Bracketed.value_append_blanks (theme : Theme) (raw : Text) :
    value theme (raw ++ b) = value theme raw ∨ value theme (raw ++ b) = value theme raw ++ b := by
  rcases Theme.renderCalls_append_blanks hb raw with h | h
  · exact .inl (by rw [value, h, value])
  · refine .inr ?_
    rw [value, h, spaced, spaceAfter_append_blanks hb, Value.spaceMath_append_blanks hb]
    rfl

/-! ## Utilities -/

namespace Value

theorem splitTag?_append_blanks (raw : Text) : splitTag? (raw ++ b) =
    (splitTag? raw).map fun tagged => (tagged.1, tagged.2 ++ b) := by
  have hcolon : ∀ ch, Text.isBlank ch = true → decide (ch = ':') = false := by
    intro ch hch
    rw [decide_eq_false_iff_not]
    rintro rfl
    exact absurd hch (by decide)
  rw [splitTag?, splitTag?, Text.cutAt?_append_blanks hb hcolon]
  cases Text.cutAt? (fun x => decide (x = ':')) raw with
  | none => rfl
  | some cut =>
    dsimp only [Option.map_some]
    rw [Option.map_map]
    rfl

/-- A kind takes a value without the blanks around it. -/
theorem Kind.formatValue?_append_blanks (k : Kind) (raw : Text) (negative trusted : Bool)
    (opacity : Option Text) :
    k.formatValue? (raw ++ b) negative trusted opacity =
      k.formatValue? raw negative trusted opacity := by
  rw [formatValue?, formatValue?, Text.trim_append_blanks hb]

end Value

namespace Environment

variable {env : Environment}

theorem renderKinds?_append_blanks (u : LookupUtility) (value : Text) (negative pinned : Bool)
    (modifier : Option ModifierText) : ∀ kinds : List Value.Kind,
    env.renderKinds? u (value ++ b) negative pinned modifier kinds =
      env.renderKinds? u value negative pinned modifier kinds
  | [] => rfl
  | kind :: rest => by
    have ih := renderKinds?_append_blanks u value negative pinned modifier rest
    rw [renderKinds?, renderKinds?, ih]
    simp only [Value.Kind.formatValue?_append_blanks hb]

theorem renderBracketed?_append_blanks (u : LookupUtility) (value : Text) (negative : Bool)
    (modifier : Option ModifierText) :
    env.renderBracketed? u (value ++ b) negative modifier =
      env.renderBracketed? u value negative modifier := by
  unfold renderBracketed?
  rw [Value.splitTag?_append_blanks hb]
  cases Value.splitTag? value with
  | none => simp only [Option.map_none, renderKinds?_append_blanks hb]
  | some tagged => simp only [Option.map_some, renderKinds?_append_blanks hb]

theorem bracketedUtility_append_blanks (name value : Text) (modifier : Option ModifierText) :
    env.bracketedUtility name (value ++ b) modifier = env.bracketedUtility name value modifier := by
  unfold bracketedUtility bracketedCandidates
  simp only [renderBracketed?_append_blanks hb]

/-- The blanks at the end of a bracketed value make no difference to the utility. -/
theorem utilityOf_append_blanks (lead : Slice) (start start' : Nat) (raw : Text)
    (m : Option ClassList.Modifier) (closed : Bool) :
    env.utilityOf (.bracketed lead ⟨start', raw ++ b⟩ m closed) =
      env.utilityOf (.bracketed lead ⟨start, raw⟩ m closed) := by
  show env.bracketedUtility lead.text (Bracketed.value env.theme (raw ++ b)) _ =
    env.bracketedUtility lead.text (Bracketed.value env.theme raw) _
  rcases Bracketed.value_append_blanks hb env.theme raw with h | h
  · rw [h]
    rfl
  · rw [h, bracketedUtility_append_blanks hb]
    rfl

end Environment
end UtilityCss
