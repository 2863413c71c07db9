import UtilityCss.Proofs.ClassList.Derivation
import UtilityCss.Proofs.ClassList.Scan

/-!
# Printed class lists are read back

A bare class list that may be written is printed and read, and what is read is the class
list again.  The proof builds a derivation of the grammar along the bare class list.  At
each place the printed text decides which rule applies: a name ends where its text does,
because neither a separator nor a name character stands there too early, and the
parenthesis that closes a group is found by the scanner, because it gets over what was
printed in between.
-/

namespace UtilityCss
namespace ClassList

open Brackets Bare

/-! ## Heads -/

/-- What follows a printed head ends it. -/
def EndsHead (sep : Separator) (r : Text) : Prop :=
  ∀ x v, r = x :: v → x ≠ '[' ∧ x ≠ '/' ∧ (isNameChar x = false ∨ sep.startsIn r = true)

theorem boxed_append (content r : Text) :
    Bare.boxed id content ++ r = '[' :: (content ++ ']' :: r) := by
  simp [Bare.boxed]

/-- A pair of brackets with a sealed content is read as such. -/
theorem passes_sealed {c : Cursor} {t r : Text} (h : Sealed false t)
    (hc : c.rest = '[' :: (t ++ ']' :: r)) :
    (closing c).closed = true ∧ (Brackets.inner c (closing c)).text = t ∧
      c.Passes ('[' :: (t ++ [']'])) (c.advance (closing c).length) ∧
      (c.advance (closing c).length).rest = r := by
  have hclosing := closing_of_sealed h hc
  have hsplit : c.rest = ('[' :: (t ++ [']'])) ++ r := by rw [hc]; simp
  have hlength : ('[' :: (t ++ [']'])).length = t.length + 2 := by simp
  have hp := Cursor.passes_advance_of_append hsplit
  have hrest := Cursor.rest_advance_of_append hsplit
  rw [hlength] at hp hrest
  rw [hclosing]
  refine ⟨rfl, ?_, hp, hrest⟩
  rw [Brackets.inner, Closing.inner, if_pos rfl, Cursor.ahead, Cursor.rest_advance, hc]
  exact List.take_left' rfl

/-- The name of a printed head is read up to its end. -/
theorem nameLength_append {sep : Separator} {u r : Text}
    (hu : ∀ ch ∈ u, isNameChar ch = true) (hclear : sep.Clear u r)
    (hend : ∀ x v, r = x :: v → isNameChar x = false ∨ sep.startsIn r = true) :
    nameLength sep (u ++ r) = u.length := by
  rw [nameLength_eq]
  exact runLength_append u hu hclear hend

theorem Head.erase_plain (start : Nat) (name : Text) :
    (Head.plain ⟨start, name⟩ (Head.ownModifier? ⟨start, name⟩)).erase =
        .plain name (modifierOf name) ∧
      (Head.plain ⟨start, name⟩ (Head.ownModifier? ⟨start, name⟩)).closed = true := by
  unfold Head.ownModifier? modifierOf
  cases hcut : Text.cutAtLast? (· = '/') name with
  | none => exact ⟨rfl, rfl⟩
  | some p =>
    obtain ⟨core, last⟩ := p
    cases last with
    | nil => exact ⟨rfl, rfl⟩
    | cons x last =>
      obtain ⟨ch, -, -, hname⟩ := Text.cutAtLast?_eq_some_iff.mp hcut
      have hdrop : name.drop (core.length + 1) = x :: last := by
        rw [hname, List.append_cons, List.drop_left' (by simp)]
      refine ⟨?_, rfl⟩
      show Bare.Head.plain name (some (name.drop (core.length + 1))) = _
      rw [hdrop]

theorem Head.erase_modified (start : Nat) (name : Text) {content : Text} {s : Slice}
    (hs : s.text = content) :
    (Head.plain ⟨start, (Bare.Head.modified name content).print id⟩
      (some ⟨s, true, true⟩)).erase = .modified name content := by
  have hwidth : ((Bare.Head.modified name content).print id).length -
      Modifier.width ⟨s, true, true⟩ = name.length := by
    show (name ++ '/' :: '[' :: (content ++ [']'])).length - (s.text.length + 3) = name.length
    rw [hs]
    simp only [List.length_append, List.length_cons, List.length_nil]
    omega
  rw [Head.erase, if_pos rfl, hwidth, hs]
  exact congrArg (Bare.Head.modified · content) (List.take_left' rfl)

/-- Where there is no slash there is no modifier. -/
theorem Head.trailing?_eq_none {sep : Separator} {c : Cursor} {r : Text} (hc : c.rest = r)
    (hr : EndsHead sep r) : Head.trailing? sep c = none := by
  unfold Head.trailing?
  split
  next t hrest => exact absurd rfl (hr '/' _ (by rw [← hc, hrest])).2.1
  next t _ hrest => exact absurd rfl (hr '/' t (by rw [← hc, hrest])).2.1
  next => rfl

/-- A printed modifier behind a value is read back. -/
theorem Bare.Modifier.Fits.trailing?_eq {sep : Separator} {m : Bare.Modifier} (h : m.Fits sep)
    {c : Cursor} {r : Text} (hclear : sep.Clear (m.print hollow) r) (hr : EndsHead sep r)
    (hc : c.rest = m.print id ++ r) :
    ∃ found d, ClassList.Head.trailing? sep c = some (found, d) ∧ c.Passes (m.print id) d ∧
      d.rest = r ∧ found.erase = m ∧ found.closed = true := by
  cases m with
  | boxed content =>
    have hrest : c.rest = '/' :: ('[' :: (content ++ ']' :: r)) := by
      rw [hc, ← boxed_append]
      rfl
    have hbracket : (c.advance 1).rest = '[' :: (content ++ ']' :: r) := by
      rw [Cursor.rest_advance, hrest]
      rfl
    obtain ⟨hclosed, hinner, hp, hbehind⟩ := passes_sealed h.1 hbracket
    have hslash : c.Passes ['/'] (c.advance 1) := Cursor.passes_advance_of_append hrest
    refine ⟨⟨inner (c.advance 1) (closing (c.advance 1)), true, true⟩, _, ?_, hslash.trans hp,
      hbehind, ?_, rfl⟩
    · unfold ClassList.Head.trailing?
      rw [hrest]
      dsimp only
      rw [hclosed]
      rfl
    · rw [ClassList.Modifier.erase, if_pos rfl, hinner]
  | plain t =>
    have hrest : c.rest = '/' :: (t ++ r) := hc
    have hlen : modifierLength sep (t ++ r) = t.length := by
      rw [modifierLength_eq]
      refine runLength_append t ?_ (Separator.Clear.right (t := ['/']) hclear) ?_
      · intro ch hch
        have hname := (h.1.2 ch hch).1
        have hne : ch ≠ '/' := by
          rintro rfl
          exact h.2 hch
        simp [isModifierChar, hname, hne]
      · intro x v hx
        rcases (hr x v hx).2.2 with hname | hstarts
        · exact Or.inl (by simp [isModifierChar, hname])
        · exact Or.inr hstarts
    have hbehind : (c.advance 1).rest = t ++ r := by rw [Cursor.rest_advance, hrest]; rfl
    have hahead := Cursor.ahead_of_append hbehind
    obtain ⟨x, t', ht⟩ := List.exists_cons_of_ne_nil h.1.1
    have hx : x ≠ '[' := by
      rintro rfl
      have := (h.1.2 '[' (by rw [ht]; exact List.mem_cons_self ..)).1
      exact absurd this (by decide)
    refine ⟨⟨⟨(c.advance 1).offset, t⟩, false, true⟩, c.advance (t.length + 1), ?_,
      Cursor.passes_advance_of_append (t := '/' :: t) hrest,
      Cursor.rest_advance_of_append (t := '/' :: t) hrest, rfl, rfl⟩
    unfold ClassList.Head.trailing?
    rw [hrest]
    split
    next r' heq =>
      rw [ht] at heq
      exact absurd (List.cons.inj (List.cons.inj heq).2).1 hx
    next r' _ heq =>
      obtain rfl : t ++ r = r' := (List.cons.inj heq).2
      rw [hlen, ht, List.length_cons]
      show some ((⟨(c.advance 1).ahead (x :: t').length, false, true⟩ : ClassList.Modifier), _) = _
      rw [← ht, hahead]
    next hno => exact absurd rfl (hno _)

/-- A word and the character behind it are the name in front of a bracket. -/
theorem nameLength_before_bracket {sep : Separator} {t w behind r : Text} {ch : Char}
    (hword : Word t) (hch : isNameChar ch = true)
    (hclear : sep.Clear (t ++ ch :: '[' :: w) r) :
    nameLength sep ((t ++ [ch]) ++ '[' :: behind) = (t ++ [ch]).length := by
  rw [List.append_cons] at hclear
  refine nameLength_append ?_ (hclear.left (by decide) _) ?_
  · intro x hx
    rcases List.mem_append.mp hx with hx | hx
    · exact (hword.2 x hx).1
    · rw [List.mem_singleton.mp hx]
      exact hch
  · intro x v hx
    obtain rfl : '[' = x := (List.cons.inj hx).1
    exact Or.inl (by decide)

section

variable {sep : Separator} {c : Cursor} {u t r : Text}

/-- In a bracket behind a slash there is the modifier. -/
theorem read?_slash (hsealed : Sealed false t)
    (hsplit : c.rest = (u ++ ['/']) ++ '[' :: (t ++ ']' :: r))
    (hlen : nameLength sep c.rest = (u ++ ['/']).length) :
    ∃ s d, s.text = t ∧ c.Passes ((u ++ ['/']) ++ '[' :: (t ++ [']'])) d ∧ d.rest = r ∧
      Head.read? sep c = some (.plain (c.upTo d) (some ⟨s, true, true⟩), d) := by
  have hname : Head.Named sep c (u ++ ['/']) _ := .of_length hsplit (by simp) hlen
  obtain ⟨hclosed, hinner, hbox, hbehind⟩ := passes_sealed hsealed hname.rest_advance
  have hread := Head.read?_modified hname (Cursor.isAt_iff.mpr ⟨_, hname.rest_advance⟩)
    (Text.endsWith_iff.mpr ⟨u, rfl⟩)
  dsimp only at hread
  rw [hclosed] at hread
  exact ⟨_, _, hinner, hname.passes.trans hbox, hbehind, hread⟩

/-- In a bracket behind a hyphen there is the value, and a modifier is looked for behind it. -/
theorem read?_hyphen (hsealed : Sealed false t)
    (hsplit : c.rest = (u ++ ['-']) ++ '[' :: (t ++ ']' :: r))
    (hlen : nameLength sep c.rest = (u ++ ['-']).length) :
    ∃ s d, s.text = t ∧ c.Passes ((u ++ ['-']) ++ '[' :: (t ++ [']'])) d ∧ d.rest = r ∧
      Head.read? sep c =
        match Head.trailing? sep d with
        | some (m, e) => some (.bracketed ⟨c.offset, u⟩ s (some m) true, e)
        | none => some (.bracketed ⟨c.offset, u⟩ s none true, d) := by
  have hname : Head.Named sep c (u ++ ['-']) _ := .of_length hsplit (by simp) hlen
  have hslash : Text.endsWith (u ++ ['-']) ['/'] = false := by
    refine Bool.eq_false_iff.mpr fun hends => ?_
    obtain ⟨v, hv⟩ := Text.endsWith_iff.mp hends
    exact absurd (List.append_inj_right' hv rfl) (by decide)
  obtain ⟨hclosed, hinner, hbox, hbehind⟩ := passes_sealed hsealed hname.rest_advance
  have hread := Head.read?_valued hname (Cursor.isAt_iff.mpr ⟨_, hname.rest_advance⟩) hslash
  dsimp only at hread
  rw [hclosed, if_pos rfl, Head.lead_hyphen] at hread
  exact ⟨_, _, hinner, hname.passes.trans hbox, hbehind, hread⟩

end

/-- At the cursor the head is read, with all its brackets closed, and what is left is `r`. -/
def Bare.Head.ReadAt (head : Bare.Head) (sep : Separator) (c : Cursor) (r : Text) : Prop :=
  ∃ found d, ClassList.Head.read? sep c = some (found, d) ∧ c.Passes (head.print id) d ∧
    d.rest = r ∧ found.erase = head ∧ found.closed = true

section

variable {sep : Separator} {c : Cursor} {r : Text}

theorem readAt_modified {name content : Text} (hword : Word name)
    (hsealed : Sealed false content)
    (hclear : sep.Clear ((Bare.Head.modified name content).print hollow) r)
    (hc : c.rest = (Bare.Head.modified name content).print id ++ r) :
    (Bare.Head.modified name content).ReadAt sep c r := by
  have hsplit : c.rest = (name ++ ['/']) ++ '[' :: (content ++ ']' :: r) := by
    rw [hc, ← boxed_append, List.append_assoc]
    exact List.append_assoc _ _ _
  obtain ⟨s, d, hs, hp, hd, hread⟩ := read?_slash hsealed hsplit
    (hsplit ▸ nameLength_before_bracket (w := [']']) hword (by decide) hclear)
  have hprint : (name ++ ['/']) ++ '[' :: (content ++ [']']) =
      (Bare.Head.modified name content).print id := (List.append_cons ..).symm
  rw [hprint] at hp
  refine ⟨_, _, hread, hp, hd, ?_, rfl⟩
  rw [hp.upTo]
  exact ClassList.Head.erase_modified _ name hs

variable (hr : EndsHead sep r)
include hr

theorem readAt_plain {name : Text} (hword : Word name) (hclear : sep.Clear name r)
    (hc : c.rest = name ++ r) :
    (Bare.Head.plain name (modifierOf name)).ReadAt sep c r := by
  have hlen : nameLength sep c.rest = name.length := by
    rw [hc]
    exact nameLength_append (fun ch hch => (hword.2 ch hch).1) hclear
      fun x v hx => (hr x v hx).2.2
  have hrest : (c.advance name.length).rest = r := Cursor.rest_advance_of_append hc
  have hat : (c.advance name.length).isAt '[' = false := by
    rw [Cursor.isAt, hrest]
    cases r with
    | nil => rfl
    | cons x v => simpa using (hr x v rfl).1
  obtain ⟨herase, hclosed⟩ := ClassList.Head.erase_plain c.offset name
  exact ⟨_, _, ClassList.Head.read?_plain (.of_length hc hword.1 hlen) hat,
    Cursor.passes_advance_of_append hc, hrest, herase, hclosed⟩

theorem readAt_bracketed {lead value : Text} (hword : Word lead) (hsealed : Sealed false value)
    (hclear : sep.Clear ((Bare.Head.bracketed lead value none).print hollow) r)
    (hc : c.rest = (Bare.Head.bracketed lead value none).print id ++ r) :
    (Bare.Head.bracketed lead value none).ReadAt sep c r := by
  have hsplit : c.rest = (lead ++ ['-']) ++ '[' :: (value ++ ']' :: r) := by
    rw [hc, ← boxed_append, List.append_assoc]
    exact List.append_assoc _ _ _
  obtain ⟨s, d, hs, hp, hd, hread⟩ := read?_hyphen hsealed hsplit
    (hsplit ▸ nameLength_before_bracket (w := [']']) hword (by decide) hclear)
  rw [ClassList.Head.trailing?_eq_none hd hr] at hread
  have hprint : (lead ++ ['-']) ++ '[' :: (value ++ [']']) =
      (Bare.Head.bracketed lead value none).print id := (List.append_cons ..).symm
  refine ⟨_, _, hread, hprint ▸ hp, hd, ?_, rfl⟩
  rw [ClassList.Head.erase, hs]
  rfl

theorem readAt_bracketed_modified {lead value : Text} {m : Bare.Modifier} (hword : Word lead)
    (hsealed : Sealed false value) (hm : m.Fits sep)
    (hclear : sep.Clear ((Bare.Head.bracketed lead value (some m)).print hollow) r)
    (hc : c.rest = (Bare.Head.bracketed lead value (some m)).print id ++ r) :
    (Bare.Head.bracketed lead value (some m)).ReadAt sep c r := by
  have hsplit : c.rest = (lead ++ ['-']) ++ '[' :: (value ++ ']' :: (m.print id ++ r)) := by
    rw [hc]
    show lead ++ '-' :: (('[' :: (value ++ [']'])) ++ m.print id) ++ r = _
    simp
  have hskeleton : sep.Clear (m.print hollow) r :=
    Separator.Clear.right (t := lead ++ ['-', '[', ']']) (by
      rw [List.append_assoc]
      exact hclear)
  obtain ⟨s, d, hs, hp, hd, hread⟩ := read?_hyphen hsealed hsplit
    (hsplit ▸ nameLength_before_bracket (w := ']' :: m.print hollow) hword (by decide) hclear)
  obtain ⟨found, e, htrailing, hm', he, herase, hclosed⟩ := hm.trailing?_eq hskeleton hr hd
  rw [htrailing] at hread
  have hprint : (lead ++ ['-']) ++ '[' :: (value ++ [']']) ++ m.print id =
      (Bare.Head.bracketed lead value (some m)).print id := by
    show _ = lead ++ '-' :: (('[' :: (value ++ [']'])) ++ m.print id)
    simp
  refine ⟨_, _, hread, hprint ▸ hp.trans hm', he, ?_, ?_⟩
  · rw [ClassList.Head.erase, hs, Option.map_some, herase]
  · simp [ClassList.Head.closed, ClassList.Head.modifier, hclosed]

/-- A printed head is read back. -/
theorem Bare.Head.Fits.readAt {head : Bare.Head} (h : head.Fits sep)
    (hclear : sep.Clear (head.print hollow) r) (hc : c.rest = head.print id ++ r) :
    head.ReadAt sep c r := by
  cases head with
  | plain name modifier =>
    obtain ⟨hword, rfl⟩ := h
    exact readAt_plain hr hword hclear hc
  | modified name content => exact readAt_modified h.1 h.2.1 hclear hc
  | bracketed lead value modifier =>
    obtain ⟨hword, hvalue, hmodifier⟩ := h
    cases modifier with
    | none => exact readAt_bracketed hr hword hvalue.1 hclear hc
    | some m => exact readAt_bracketed_modified hr hword hvalue.1 (hmodifier m rfl) hclear hc

end

/-! ## Variants -/

/-- In front of what follows in a row of texts there is a blank. -/
theorem joinWith_cons (t : Text) (rest : List Text) :
    ∃ gap, (gap = [] ∧ rest = [] ∨ gap = [' ']) ∧ Blank gap ∧
      Text.joinWith [' '] (t :: rest) = t ++ (gap ++ Text.joinWith [' '] rest) := by
  cases rest with
  | nil => exact ⟨[], Or.inl ⟨rfl, rfl⟩, by simp [Blank], by simp [Text.joinWith]⟩
  | cons u rest =>
    refine ⟨[' '], Or.inr rfl, ?_, by simp [Text.joinWith]⟩
    intro ch hch
    rw [List.mem_singleton.mp hch]
    decide

section

variable {sep : Separator}

theorem membersPrint_ne_nil : ∀ {members : List (List Bare.Variant)}, members ≠ [] →
    membersPrint id sep members ≠ []
  | [], h => absurd rfl h
  | _ :: _, _ => List.cons_ne_nil _ _

theorem exprsPrint_ne_nil : ∀ {es : List Bare.Expr}, es ≠ [] → exprsPrint id sep es ≠ []
  | [], h => absurd rfl h
  | _ :: _, _ => List.cons_ne_nil _ _

/-- The separator ends a head. -/
theorem endsHead_of_startsIn {r : Text} (h : sep.startsIn r = true) : EndsHead sep r := by
  intro x v hx
  obtain ⟨u, hu⟩ := sep.startsIn_iff.mp h
  obtain ⟨y, w, hy⟩ := List.exists_cons_of_ne_nil sep.text_ne_nil
  have hmem : x ∈ sep.text := by
    rw [hx, hy] at hu
    rw [hy, (List.cons.inj hu).1]
    exact List.mem_cons_self ..
  refine ⟨?_, ?_, Or.inr h⟩
  · rintro rfl
    exact sep.not_mem_text (by decide) hmem
  · rintro rfl
    exact sep.not_mem_text (by decide) hmem

/-- The text starts with a character that ends no expression. -/
def Begins (t : Text) : Prop := ∃ ch u, t = ch :: u ∧ Text.isBlank ch = false ∧ ch ≠ ')'

theorem Begins.append {t : Text} (h : Begins t) (u : Text) : Begins (t ++ u) := by
  obtain ⟨ch, v, rfl, hch⟩ := h
  exact ⟨ch, v ++ u, rfl, hch⟩

/-- Blanks in front of such a text are skipped up to it. -/
theorem Begins.skip {t b u : Text} (h : Begins t) {c : Cursor} (hc : c.rest = b ++ (t ++ u))
    (hb : Blank b) : c.Passes b c.skipBlanks ∧ c.skipBlanks.rest = t ++ u := by
  obtain ⟨ch, v, rfl, hch, -⟩ := h
  refine Cursor.passes_skipBlanks_of_append hc hb ?_
  intro x w hx
  rw [← (List.cons.inj hx).1]
  exact hch

theorem Bare.Head.Fits.begins {head : Bare.Head} (h : head.Fits sep) : Begins (head.print id) := by
  have word : ∀ t u : Text, Word t → Begins (t ++ u) := by
    intro t u ht
    obtain ⟨ch, v, rfl⟩ := List.exists_cons_of_ne_nil ht.1
    obtain ⟨hblank, -, hclose, -⟩ := isNameChar_iff.mp (ht.2 ch (List.mem_cons_self ..)).1
    refine ⟨ch, v ++ u, rfl, hblank, ?_⟩
    rintro rfl
    exact absurd hclose (by decide)
  cases head with
  | plain name modifier =>
    have hname := word name [] h.1
    rwa [List.append_nil] at hname
  | modified name content => exact word name _ h.1
  | bracketed lead value modifier =>
    cases modifier with
    | none => exact word lead _ h.1
    | some m => exact word lead _ h.1

theorem Bare.Variant.Fits.begins {v : Bare.Variant} (h : v.Fits sep) :
    Begins (v.print id sep) := by
  cases v with
  | named head => exact h.1.begins
  | selector content => exact ⟨'[', _, rfl, by decide, by decide⟩
  | group members => exact ⟨'(', _, rfl, by decide, by decide⟩

theorem begins_chainPrint {links : List Bare.Variant} (h : ChainFits sep links) (hne : links ≠ []) :
    Begins (chainPrint id sep links) := by
  cases links with
  | nil => exact absurd rfl hne
  | cons v rest => exact (h.1.begins.append sep.text).append _

theorem isAtGap_of_rest {c : Cursor} {ch : Char} {u : Text} (h : c.rest = ch :: u)
    (hch : Text.isBlank ch = false) : c.isAtGap = false := by
  rw [Cursor.isAtGap, h]
  exact hch

/-- Behind a blank or an opening parenthesis no address starts. -/
theorem afterUrl_cons {ch : Char} {before : Text} (hch : ch.toLower ≠ 'l')
    (h : afterUrl (ch :: before) = true) : endsUrl sep = true :=
  absurd (toLower_of_afterUrl (t := []) h) hch

/-- Nor does one behind the gap in front of a text that there is. -/
theorem afterUrl_gap {gap before : Text} {ts : List Text} (hgap : gap = [] ∧ ts = [] ∨ gap = [' '])
    (hts : ts ≠ []) (h : afterUrl (gap.reverse ++ before) = true) : endsUrl sep = true := by
  rcases hgap with ⟨-, hnil⟩ | rfl
  · exact absurd hnil hts
  · exact afterUrl_cons (by decide) h

/-- Behind a separator an address starts only if separators can bring that about. -/
theorem afterUrl_separator {c d e : Cursor} {t : Text} (hp : c.Passes t d)
    (hpass : d.Passes sep.text e) (hbefore : afterUrl c.before = true → endsUrl sep = true)
    (h : afterUrl e.before = true) : endsUrl sep = true := by
  refine Settles.of_separator sep t c.before hbefore ?_
  rw [List.reverse_append, List.append_assoc, ← hp.before_eq, ← hpass.before_eq]
  exact h

mutual

/-- A printed variant is read back. -/
theorem Bare.Variant.reads (hsep : ∀ ch ∈ sep.text, isPlain ch = true) :
    ∀ {v : Bare.Variant}, v.Fits sep → NoComment (v.print hollow sep) →
      ∀ {c : Cursor} {r : Text} {stop : Nat}, c.rest = v.print id sep ++ r →
        sep.startsIn r = true → stop ≤ r.length →
        (afterUrl c.before = true → endsUrl sep = true) →
        ∃ x d, ReadsVariant sep stop c x d ∧ c.Passes (v.print id sep) d ∧ d.rest = r ∧
          x.erase = v ∧ x.AllClosed
  | .named head, h, _, c, r, stop, hc, hr, hstop, _ => by
    obtain ⟨u, hu⟩ := sep.startsIn_iff.mp hr
    have hclear : sep.Clear (head.print hollow) r := hu ▸ Separator.Clear.of_cutAround? h.2 u
    obtain ⟨found, d, hread, hp, hd, herase, hclosed⟩ :=
      h.1.readAt (endsHead_of_startsIn hr) hclear hc
    exact ⟨_, d, .named hread (by rw [hd]; exact hstop), hp, hd, congrArg _ herase, hclosed⟩
  | .selector content, h, _, c, r, stop, hc, hr, hstop, _ => by
    have hrest : c.rest = '[' :: (content ++ ']' :: r) := hc.trans (boxed_append content r)
    obtain ⟨-, hinner, hp, hd⟩ := passes_sealed h.1 hrest
    exact ⟨_, _, .selector (Cursor.isAt_iff.mpr ⟨_, hrest⟩) rfl (by rw [hd]; exact hstop), hp, hd,
      congrArg _ hinner, trivial⟩
  | .group members, h, hcomment, c, r, stop, hc, hr, hstop, hbefore => by
    let body := Text.joinWith [' '] (membersPrint id sep members)
    have hsplit : c.rest = ('(' :: (body ++ [')'])) ++ r := hc
    have hrest : c.rest = '(' :: (body ++ ')' :: r) := by rw [hsplit]; simp
    have hclosing : closing c = ⟨body.length + 2, true⟩ :=
      closing_of_skips (membersSkip hsep h) hcomment hbefore hrest
    have hlength : ('(' :: (body ++ [')'])).length = body.length + 2 := by simp
    have hp := Cursor.passes_advance_of_append hsplit
    have hd := Cursor.rest_advance_of_append hsplit
    rw [hlength] at hp hd
    have hopen : c.Passes ['('] (c.advance 1) := Cursor.passes_advance_of_append hrest
    have hbody : (c.advance 1).rest = [] ++ (body ++ ')' :: r) := by
      rw [Cursor.rest_advance, hrest]
      rfl
    obtain ⟨xs, hxs, herase, hclosed⟩ := membersRead hsep h
      (hcomment.of_infix ⟨['('], [')'], by simp [Bare.Variant.print]⟩) hbody (by simp [Blank])
      (fun _ hurl => by
        rw [hopen.before_eq] at hurl
        exact afterUrl_cons (by decide) hurl)
    have hadvance : c.advance (closing c).length = c.advance (body.length + 2) := by rw [hclosing]
    refine ⟨_, c.advance (body.length + 2), .group (Cursor.isAt_iff.mpr ⟨_, hrest⟩)
      (by rw [hclosing]) hadvance (by rw [hd]; exact hstop) (by rw [hd]; exact hxs), hp, hd,
      congrArg _ herase, hclosed⟩

/-- The links of a printed chain are read back. -/
theorem chainReads (hsep : ∀ ch ∈ sep.text, isPlain ch = true) :
    ∀ {links : List Bare.Variant}, ChainFits sep links → NoComment (chainPrint hollow sep links) →
      ∀ {c : Cursor} {r : Text} {stop : Nat}, c.rest = chainPrint id sep links ++ r →
        (r.length ≤ stop ∨ ∃ v, r = ' ' :: v) → stop ≤ r.length →
        (afterUrl c.before = true → endsUrl sep = true) →
        ∃ xs d, ReadsChain sep stop c xs d ∧ c.Passes (chainPrint id sep links) d ∧ d.rest = r ∧
          chainErase xs = links ∧ ChainClosed xs
  | [], _, _, c, r, stop, hc, hend, hstop, _ => by
    have hrest : c.rest = r := hc
    refine ⟨[], c, .done ?_, Cursor.passes_nil c, hrest, rfl, trivial⟩
    rcases hend with hlen | ⟨v, rfl⟩
    · exact Or.inl (by rw [hrest]; exact hlen)
    · refine Or.inr (Or.inl ?_)
      rw [Cursor.isAtGap, hrest]
      show Text.isBlank ' ' = true
      decide
  | v :: rest, h, hcomment, c, r, stop, hc, hend, hstop, hbefore => by
    have hsplit : c.rest = v.print id sep ++ (sep.text ++ (chainPrint id sep rest ++ r)) := by
      rw [hc]
      simp [chainPrint]
    obtain ⟨ch, u, hprint, hch, -⟩ := h.1.begins
    have hlink : NoComment (v.print hollow sep) :=
      hcomment.of_infix ⟨[], sep.text ++ chainPrint hollow sep rest, by simp [chainPrint]⟩
    have hrest : NoComment (chainPrint hollow sep rest) :=
      hcomment.of_infix ⟨v.print hollow sep ++ sep.text, [], by simp [chainPrint]⟩
    have hstarts : sep.startsIn (sep.text ++ (chainPrint id sep rest ++ r)) = true :=
      sep.startsIn_iff.mpr ⟨_, rfl⟩
    have hroom : stop ≤ (sep.text ++ (chainPrint id sep rest ++ r)).length := by
      simp only [List.length_append]
      omega
    obtain ⟨x, d, hx, hp, hd, herase, hclosed⟩ :=
      Bare.Variant.reads hsep h.1 hlink hsplit hstarts hroom hbefore
    have hpass := Cursor.passes_advance_of_append hd
    have hnext := Cursor.rest_advance_of_append hd
    obtain ⟨xs, e, hxs, hp', he, herase', hclosed'⟩ :=
      chainReads hsep h.2 hrest hnext hend hstop (afterUrl_separator hp hpass hbefore)
    refine ⟨x :: xs, e, .link ?_ ?_ hx (by rw [hd]; exact hstarts) hxs, (hp.trans hpass).trans hp',
      he, ?_, hclosed, hclosed'⟩
    · rw [hsplit, hprint]
      simp only [List.length_append, List.length_cons]
      omega
    · exact isAtGap_of_rest (by rw [hsplit, hprint]; rfl) hch
    · rw [chainErase, herase, herase']

/-- The chains of a printed group are read back. -/
theorem membersRead (hsep : ∀ ch ∈ sep.text, isPlain ch = true) :
    ∀ {members : List (List Bare.Variant)}, MembersFit sep members →
      NoComment (Text.joinWith [' '] (membersPrint hollow sep members)) →
      ∀ {c : Cursor} {b r : Text},
        c.rest = b ++ (Text.joinWith [' '] (membersPrint id sep members) ++ ')' :: r) → Blank b →
        (members ≠ [] → afterUrl (b.reverse ++ c.before) = true → endsUrl sep = true) →
        ∃ xs, ReadsChains sep (r.length + 1) c xs ∧ membersErase xs = members ∧ MembersClosed xs
  | [], _, _, c, b, r, hc, hb, _ => by
    have hc : c.rest = b ++ ')' :: r := hc
    obtain ⟨-, hskip⟩ := Cursor.passes_skipBlanks_of_append hc hb
      (fun x v hx => (List.cons.inj hx).1 ▸ (by decide))
    exact ⟨[], .done (by rw [hskip]; exact Nat.le_refl _), rfl, trivial⟩
  | links :: rest, h, hcomment, c, b, r, hc, hb, hbefore => by
    obtain ⟨hne, hlinks, hrest⟩ := h
    obtain ⟨gap, hgap, hblank, hjoin⟩ :=
      joinWith_cons (chainPrint id sep links) (membersPrint id sep rest)
    obtain ⟨gap', -, -, hjoin'⟩ :=
      joinWith_cons (chainPrint hollow sep links) (membersPrint hollow sep rest)
    have hskeleton : Text.joinWith [' '] (membersPrint hollow sep (links :: rest)) = _ := hjoin'
    rw [hskeleton] at hcomment
    have hsplit : c.rest = b ++ (chainPrint id sep links ++
        (gap ++ (Text.joinWith [' '] (membersPrint id sep rest) ++ ')' :: r))) := by
      rw [hc]
      show b ++ (Text.joinWith [' '] (chainPrint id sep links :: membersPrint id sep rest) ++ _) = _
      rw [hjoin]
      simp only [List.append_assoc]
    have hbegins := begins_chainPrint hlinks hne
    obtain ⟨hp, hskip⟩ := hbegins.skip hsplit hb
    have hend : (gap ++ (Text.joinWith [' '] (membersPrint id sep rest) ++ ')' :: r)).length ≤
        r.length + 1 ∨
        ∃ v, gap ++ (Text.joinWith [' '] (membersPrint id sep rest) ++ ')' :: r) = ' ' :: v := by
      rcases hgap with ⟨rfl, hnil⟩ | rfl
      · rw [hnil]
        exact Or.inl (Nat.le_refl _)
      · exact Or.inr ⟨_, rfl⟩
    have hroom : r.length + 1 ≤
        (gap ++ (Text.joinWith [' '] (membersPrint id sep rest) ++ ')' :: r)).length := by
      simp only [List.length_append, List.length_cons]
      omega
    obtain ⟨xs, d, hxs, hp', hd, herase, hclosed⟩ := chainReads hsep hlinks
      (hcomment.of_infix ⟨[], _, rfl⟩) hskip hend hroom (fun hurl => by
        rw [hp.before_eq] at hurl
        exact hbefore (List.cons_ne_nil _ _) hurl)
    obtain ⟨ys, hys, herase', hclosed'⟩ := membersRead hsep hrest
      (hcomment.of_infix ⟨chainPrint hollow sep links ++ gap', [], by simp⟩) hd hblank
      (fun hne' => afterUrl_gap hgap (membersPrint_ne_nil hne'))
    cases xs with
    | nil =>
      rw [chainErase] at herase
      exact absurd herase.symm hne
    | cons x xs =>
      obtain ⟨ch, u, hprint, -⟩ := hbegins
      refine ⟨(x :: xs) :: ys, .chain ?_ hxs hys, ?_, hclosed, hclosed'⟩
      · rw [hskip, hprint]
        simp only [List.length_append, List.length_cons]
        omega
      · rw [membersErase, herase, herase']

end

/-! ## Expressions -/

/-- What may follow an expression: a blank, a closing parenthesis or nothing. -/
def Follows (r : Text) : Prop := ∀ x v, r = x :: v → x = ' ' ∨ x = ')'

namespace Follows

variable {r : Text}

theorem separates_eq_false (h : Follows r) : ∀ x v, r = x :: v → separates x = false := by
  intro x v hx
  rcases h x v hx with rfl | rfl <;> decide

theorem endsHead (h : Follows r) : EndsHead sep r := by
  intro x v hx
  rcases h x v hx with rfl | rfl
  · exact ⟨by decide, by decide, Or.inl (by decide)⟩
  · exact ⟨by decide, by decide, Or.inl (by decide)⟩

theorem startsIn_eq_false (h : Follows r) : sep.startsIn r = false := by
  cases r with
  | nil => exact sep.startsIn_nil
  | cons x v => exact sep.startsIn_cons (h.separates_eq_false x v rfl)

theorem takeBang_eq (h : Follows r) {d : Cursor} (hd : d.rest = r) : takeBang d = (false, d) := by
  have hat : d.isAt '!' = false := by
    rw [Cursor.isAt, hd]
    cases r with
    | nil => rfl
    | cons x v => rcases h x v rfl with rfl | rfl <;> rfl
  rw [takeBang, if_neg (by rw [hat]; decide)]

/-- A bracket with this behind it is no variant. -/
theorem isVariant_eq_false (h : Follows r) {c : Cursor}
    (hc : (c.advance (closing c).length).rest = r) : isVariant sep c = false := by
  rw [isVariant, hc, h.startsIn_eq_false]
  simp

theorem gap (h : Follows r) {d : Cursor} (hd : d.rest = r) :
    (d.isAtGap || d.isAt ')') = true := by
  rw [Cursor.isAtGap, Cursor.isAt, hd]
  cases r with
  | nil => rfl
  | cons x v =>
    rcases h x v rfl with rfl | rfl
    · rw [Bool.or_eq_true]
      left
      show Text.isBlank ' ' = true
      decide
    · rw [Bool.or_eq_true]
      right
      rfl

end Follows

theorem marks_of_rest {important : Bool} {c : Cursor} {u : Text}
    (hc : c.rest = bang important ++ u) :
    ∃ start, Marks important c start ∧ c.Passes (bang important) start ∧ start.rest = u := by
  cases important with
  | false => exact ⟨c, rfl, Cursor.passes_nil c, hc⟩
  | true =>
    exact ⟨c.advance 1, ⟨Cursor.isAt_iff.mpr ⟨u, hc⟩, rfl⟩, Cursor.passes_advance_of_append hc,
      Cursor.rest_advance_of_append hc⟩

theorem Bare.Expr.Fits.begins : ∀ {e : Bare.Expr}, e.Fits sep → Begins (e.print id sep)
  | .group _ true, _ => ⟨'!', _, rfl, by decide, by decide⟩
  | .group _ false, _ => ⟨'(', _, rfl, by decide, by decide⟩
  | .span _ none, h => Begins.append (Bare.Variant.Fits.begins h) _
  | .span _ (some _), h => ((Bare.Variant.Fits.begins h.1).append _).append _
  | .utility _ true, _ => ⟨'!', _, rfl, by decide, by decide⟩
  | .utility _ false, h => h.1.begins
  | .property _ true, _ => ⟨'!', _, rfl, by decide, by decide⟩
  | .property _ false, _ => ⟨'[', _, rfl, by decide, by decide⟩

mutual

/-- A printed expression is read back. -/
theorem Bare.Expr.reads (hsep : ∀ ch ∈ sep.text, isPlain ch = true) :
    ∀ {e : Bare.Expr}, e.Fits sep → NoComment (e.print hollow sep) →
      ∀ {inGroup : Bool} {c : Cursor} {r : Text}, c.rest = e.print id sep ++ r → Follows r →
        (afterUrl c.before = true → endsUrl sep = true) →
        ∃ x d, Reads sep inGroup c x d ∧ c.Passes (e.print id sep) d ∧ d.rest = r ∧
          x.erase = e ∧ x.AllClosed
  | .utility head important, h, _, inGroup, c, r, hc, hr, _ => by
    have hsplit : c.rest = bang important ++ (head.print id ++ r) := by
      rw [hc, Bare.Expr.print, List.append_assoc]
    obtain ⟨start, hmarks, hp, hstart⟩ := marks_of_rest hsplit
    obtain ⟨found, d, hread, hp', hd, herase, hclosed⟩ :=
      h.1.readAt hr.endsHead (Separator.Clear.of_includes h.2 hr.separates_eq_false) hstart
    have hreads : Reads sep inGroup c _ _ :=
      .utility hmarks hread (by rw [hd, hr.startsIn_eq_false]; simp)
    rw [hr.takeBang_eq hd] at hreads
    exact ⟨_, d, hreads, hp.trans hp', hd, congrArg (Bare.Expr.utility · important) herase,
      hclosed⟩
  | .property content important, h, _, inGroup, c, r, hc, hr, _ => by
    have hsplit : c.rest = bang important ++ ('[' :: (content ++ ']' :: r)) := by
      rw [hc, Bare.Expr.print, List.append_assoc, boxed_append]
    obtain ⟨start, hmarks, hp, hstart⟩ := marks_of_rest hsplit
    obtain ⟨hclosed, hinner, hp', hd⟩ := passes_sealed h.1 hstart
    have hvariant : (important || !isVariant sep start) = true := by
      rw [hr.isVariant_eq_false hd, Bool.not_false, Bool.or_true]
    have hreads : Reads sep inGroup c _ _ :=
      .property hmarks (Cursor.isAt_iff.mpr ⟨_, hstart⟩) hvariant rfl hclosed
    rw [hr.takeBang_eq hd] at hreads
    exact ⟨_, _, hreads, hp.trans hp', hd, congrArg (Bare.Expr.property · important) hinner, rfl⟩
  | .group members important, h, hcomment, inGroup, c, r, hc, hr, hbefore => by
    let body := Text.joinWith [' '] (exprsPrint id sep members)
    have hsplit : c.rest = bang important ++ ('(' :: (body ++ ')' :: r)) := by
      rw [hc, Bare.Expr.print, List.append_assoc]
      show bang important ++ (('(' :: (body ++ [')'])) ++ r) = _
      simp
    obtain ⟨start, hmarks, hp, hstart⟩ := marks_of_rest hsplit
    have hat : start.isAt '(' = true := Cursor.isAt_iff.mpr ⟨_, hstart⟩
    have hgroup : NoComment
        ('(' :: (Text.joinWith [' '] (exprsPrint hollow sep members) ++ [')'])) :=
      hcomment.of_infix ⟨bang important, [], by simp [Bare.Expr.print]⟩
    have hbehind : afterUrl start.before = true → endsUrl sep = true := by
      rw [hp.before_eq]
      exact Settles.bang important c.before hbefore
    have hclosing : closing start = ⟨body.length + 2, true⟩ :=
      closing_of_skips (exprsSkip hsep h) hgroup hbehind hstart
    have hafter : (start.advance (closing start).length).rest = r := by
      rw [hclosing, Cursor.rest_advance, hstart]
      simp
    have hvariant : (important || !isVariant sep start) = true := by
      rw [hr.isVariant_eq_false hafter, Bool.not_false, Bool.or_true]
    have hopen : start.Passes ['('] (start.advance 1) := Cursor.passes_advance_of_append hstart
    have hbody : (start.advance 1).rest = [] ++ (body ++ ')' :: r) := by
      rw [Cursor.rest_advance, hstart]
      rfl
    obtain ⟨xs, d, hxs, hp', hd, herase, hclosed⟩ := exprsRead hsep h
      (hgroup.of_infix ⟨['('], [')'], by simp⟩) hbody (by simp [Blank])
      (Or.inr ⟨rfl, r, rfl⟩) (fun _ hurl => by
        rw [hopen.before_eq] at hurl
        exact afterUrl_cons (by decide) hurl)
    have hshut : d.Passes [')'] (d.advance 1) := Cursor.passes_advance_of_append hd
    have hbehind : (d.advance 1).rest = r := Cursor.rest_advance_of_append (t := [')']) hd
    have hreads : Reads sep inGroup c _ _ :=
      .group hmarks hat hvariant hxs (Cursor.isAt_iff.mpr ⟨r, hd⟩) rfl
    rw [hr.takeBang_eq hbehind] at hreads
    have hprint : bang important ++ (['('] ++ (([] ++ body) ++ [')'])) =
        (Bare.Expr.group members important).print id sep := rfl
    refine ⟨_, _, hreads, hprint ▸ hp.trans (hopen.trans (hp'.trans hshut)), hbehind,
      congrArg (Bare.Expr.group · important) herase, rfl, hclosed⟩
  | .span v none, h, hcomment, inGroup, c, r, hc, hr, hbefore => by
    have hsplit : c.rest = v.print id sep ++ (sep.text ++ r) := by
      rw [hc, Bare.Expr.print, List.append_assoc]
    have hvariant : NoComment (v.print hollow sep) := hcomment.of_infix ⟨[], sep.text, rfl⟩
    have hstarts : sep.startsIn (sep.text ++ r) = true := sep.startsIn_iff.mpr ⟨r, rfl⟩
    have hroom : 1 ≤ (sep.text ++ r).length := startsIn_length_pos hstarts
    obtain ⟨x, d, hx, hp, hd, herase, hclosed⟩ :=
      Bare.Variant.reads hsep h hvariant hsplit hstarts hroom hbefore
    have hnext := Cursor.rest_advance_of_append hd
    exact ⟨_, _, .bare hx (by rw [hd]; exact hstarts) rfl (hr.gap hnext),
      hp.trans (Cursor.passes_advance_of_append hd), hnext,
      congrArg (Bare.Expr.span · none) herase, hclosed⟩
  | .span v (some child), h, hcomment, inGroup, c, r, hc, hr, hbefore => by
    have hsplit : c.rest = v.print id sep ++ (sep.text ++ (child.print id sep ++ r)) := by
      rw [hc, Bare.Expr.print]
      simp only [List.append_assoc]
    have hvariant : NoComment (v.print hollow sep) :=
      hcomment.of_infix ⟨[], sep.text ++ child.print hollow sep, by simp [Bare.Expr.print]⟩
    have hchild : NoComment (child.print hollow sep) :=
      hcomment.of_infix ⟨v.print hollow sep ++ sep.text, [], by simp [Bare.Expr.print]⟩
    have hstarts : sep.startsIn (sep.text ++ (child.print id sep ++ r)) = true :=
      sep.startsIn_iff.mpr ⟨_, rfl⟩
    obtain ⟨x, d, hx, hp, hd, herase, hclosed⟩ :=
      Bare.Variant.reads hsep h.1 hvariant hsplit hstarts (startsIn_length_pos hstarts) hbefore
    have hpass := Cursor.passes_advance_of_append hd
    have hnext := Cursor.rest_advance_of_append hd
    obtain ⟨ch, u, hprint, hblank, hclose⟩ := Bare.Expr.Fits.begins h.2
    have hgap : ((d.advance sep.text.length).isAtGap ||
        (d.advance sep.text.length).isAt ')') = false := by
      rw [Cursor.isAtGap, Cursor.isAt, hnext, hprint]
      show (Text.isBlank ch || some ch == some ')') = false
      simp [hblank, hclose]
    obtain ⟨y, e, hy, hp', he, herase', hclosed'⟩ :=
      Bare.Expr.reads hsep h.2 hchild hnext hr (afterUrl_separator hp hpass hbefore)
    refine ⟨_, e, .span hx (by rw [hd]; exact hstarts) rfl hgap hy, (hp.trans hpass).trans hp', he,
      ?_, hclosed, hclosed'⟩
    rw [Expr.erase, herase, herase']

/-- Printed expressions are read back. -/
theorem exprsRead (hsep : ∀ ch ∈ sep.text, isPlain ch = true) :
    ∀ {es : List Bare.Expr}, ExprsFit sep es →
      NoComment (Text.joinWith [' '] (exprsPrint hollow sep es)) →
      ∀ {inGroup : Bool} {c : Cursor} {b r : Text},
        c.rest = b ++ (Text.joinWith [' '] (exprsPrint id sep es) ++ r) → Blank b →
        (r = [] ∨ inGroup = true ∧ ∃ v, r = ')' :: v) →
        (es ≠ [] → afterUrl (b.reverse ++ c.before) = true → endsUrl sep = true) →
        ∃ xs d, ReadsAll sep inGroup c xs d ∧
          c.Passes (b ++ Text.joinWith [' '] (exprsPrint id sep es)) d ∧ d.rest = r ∧
          exprsErase xs = es ∧ ExprsClosed xs
  | [], _, _, inGroup, c, b, r, hc, hb, hr, _ => by
    have hc : c.rest = b ++ r := hc
    obtain ⟨hp, hskip⟩ := Cursor.passes_skipBlanks_of_append hc hb (fun x v hx => by
      rcases hr with hnil | ⟨-, w, hw⟩
      · rw [hnil] at hx
        exact absurd hx (by simp)
      · rw [hw] at hx
        rw [← (List.cons.inj hx).1]
        decide)
    refine ⟨[], c.skipBlanks, .done ?_, ?_, hskip, rfl, trivial⟩
    · rcases hr with hnil | ⟨hgroup, w, hw⟩
      · exact Or.inl (by rw [hskip, hnil])
      · exact Or.inr ⟨hgroup, Cursor.isAt_iff.mpr ⟨w, by rw [hskip, hw]⟩⟩
    · show c.Passes (b ++ []) c.skipBlanks
      rw [List.append_nil]
      exact hp
  | e :: rest, h, hcomment, inGroup, c, b, r, hc, hb, hr, hbefore => by
    obtain ⟨gap, hgap, hblank, hjoin⟩ := joinWith_cons (e.print id sep) (exprsPrint id sep rest)
    obtain ⟨gap', -, -, hjoin'⟩ :=
      joinWith_cons (e.print hollow sep) (exprsPrint hollow sep rest)
    have hskeleton : Text.joinWith [' '] (exprsPrint hollow sep (e :: rest)) = _ := hjoin'
    rw [hskeleton] at hcomment
    have hprint : Text.joinWith [' '] (exprsPrint id sep (e :: rest)) = _ := hjoin
    rw [hprint]
    have hsplit : c.rest = b ++ (e.print id sep ++
        (gap ++ (Text.joinWith [' '] (exprsPrint id sep rest) ++ r))) := by
      rw [hc, hprint]
      simp only [List.append_assoc]
    obtain ⟨hp, hskip⟩ := (Bare.Expr.Fits.begins h.1).skip hsplit hb
    have hfollows : Follows (gap ++ (Text.joinWith [' '] (exprsPrint id sep rest) ++ r)) := by
      intro x v hx
      rcases hgap with ⟨rfl, hnil⟩ | rfl
      · rw [hnil] at hx
        have hx : r = x :: v := hx
        rcases hr with hr | ⟨-, w, hw⟩
        · rw [hr] at hx
          exact absurd hx (by simp)
        · rw [hw] at hx
          exact Or.inr (List.cons.inj hx).1.symm
      · exact Or.inl (List.cons.inj hx).1.symm
    obtain ⟨x, d, hx, hp', hd, herase, hclosed⟩ := Bare.Expr.reads hsep h.1
      (hcomment.of_infix ⟨[], _, rfl⟩) hskip hfollows (fun hurl => by
        rw [hp.before_eq] at hurl
        exact hbefore (List.cons_ne_nil _ _) hurl)
    obtain ⟨xs, f, hxs, hp'', hf, herase', hclosed'⟩ := exprsRead hsep h.2
      (hcomment.of_infix ⟨e.print hollow sep ++ gap', [], by simp⟩) hd hblank hr
      (fun hne => afterUrl_gap hgap (exprsPrint_ne_nil hne))
    refine ⟨x :: xs, f, .next hx hxs, hp.trans (hp'.trans hp''), hf, ?_, hclosed, hclosed'⟩
    rw [exprsErase, herase, herase']

end

end

/-! ## Whole class lists -/

/-- Reading what was printed gives the class list back, with every part closed.  The class
list may be anything that fits its separator, to any depth, as long as the separator
holds no quote and no backslash and no comment begins outside of brackets. -/
theorem read_print (sep : Separator) (hsep : ∀ ch ∈ sep.text, isPlain ch = true)
    (es : List Bare.Expr) (hfits : ExprsFit sep es)
    (hcomment : NoComment (Bare.print hollow sep es)) :
    exprsErase (read sep (Bare.print id sep es)).exprs = es ∧
      ∀ n ∈ (read sep (Bare.print id sep es)).listing, n.closed = true := by
  have hstart : (Cursor.atStart (Bare.print id sep es)).rest =
      [] ++ (Text.joinWith [' '] (exprsPrint id sep es) ++ []) := by
    rw [List.append_nil]
    rfl
  obtain ⟨xs, d, hxs, -, -, herase, hclosed⟩ := exprsRead hsep hfits hcomment hstart
    (by simp [Blank]) (Or.inl rfl) (fun _ hurl => absurd hurl (by simp [Cursor.atStart, afterUrl]))
  have hxs : ReadsAll sep false _ xs d := hxs
  have hread := hxs.read_eq
  rw [hread]
  exact ⟨herase, fun n hn => Program.closed_of_mem_listing hclosed hn⟩

/-- A group of variants with a chain in it, in front of a group of utilities and a property. -/
theorem read_print_nested :
    let sep := Separator.colon
    let es : List Bare.Expr :=
      [.span (.group [[.named (.plain ['s', 'm'] none), .selector ['&', '>', '*']],
          [.named (.bracketed ['g'] ['x'] (some (.plain ['y'])))]])
        (some (.group [.utility (.bracketed ['w'] ['(', ')'] (some (.boxed ['5']))) false,
          .utility (.modified ['b', '-'] ['.']) true, .property ['a', ':', 'b'] false] true)),
        .utility (.plain ['p', '/', '4'] (some ['4'])) false]
    exprsErase (read sep (Bare.print id sep es)).exprs = es ∧
      ∀ n ∈ (read sep (Bare.print id sep es)).listing, n.closed = true := by
  intro sep es
  have content : Content sep ['&', '>', '*'] ∧ Content sep ['5'] ∧ Content sep ['a', ':', 'b'] := by
    decide
  have hvariant : MembersFit sep [[.named (.plain ['s', 'm'] none), .selector ['&', '>', '*']],
      [.named (.bracketed ['g'] ['x'] (some (.plain ['y'])))]] :=
    ⟨by decide, ⟨⟨⟨by decide, by decide⟩, by decide⟩, content.1, trivial⟩, by decide,
      ⟨⟨⟨by decide, by decide, fun m hm => Option.some.inj hm ▸ ⟨by decide, by decide⟩⟩,
        by decide⟩, trivial⟩, trivial⟩
  have hchild : ExprsFit sep [.utility (.bracketed ['w'] ['(', ')'] (some (.boxed ['5']))) false,
      .utility (.modified ['b', '-'] ['.']) true, .property ['a', ':', 'b'] false] :=
    ⟨⟨⟨by decide, by decide, fun m hm => Option.some.inj hm ▸ content.2.1⟩, by decide⟩,
      ⟨⟨by decide, by decide⟩, by decide⟩, content.2.2, trivial⟩
  exact read_print sep (by decide) es
    ⟨⟨hvariant, hchild⟩, ⟨⟨by decide, by decide⟩, by decide⟩, trivial⟩ (by decide)

end ClassList
end UtilityCss
