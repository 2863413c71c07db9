import UtilityCss.Proofs.ClassList.Grammar
import UtilityCss.Proofs.ClassList.Head

/-!
# How a tree lies in its source

`Expr.Laid` says what text an expression stands for and where: its parts follow one
another in the text, and what lies between them is the separators, the brackets and
the marks of importance that belong to the shape, and blanks.  It is a recursion on the
tree, and nothing in it speaks of cursors or of how the tree was found.

Every derivation of the grammar produces a tree that is laid out in the text passed
over.  The one thing to watch is the end of a group of variants, which no link
may cross.  `Cursor.Encloses` keeps the text up to that end; a separator cannot
reach over the closing bracket, and blanks cannot either.
-/

namespace UtilityCss

namespace Cursor

/-- The text `body` is ahead, and then a closing bracket with which `stop` characters remain. -/
def Encloses (c : Cursor) (stop : Nat) (body : Text) : Prop :=
  ∃ close after, c.rest = body ++ close :: after ∧ Brackets.isClosing close = true ∧
    stop = after.length + 1

namespace Encloses

variable {c d : Cursor} {stop : Nat} {body t : Text}

theorem length (h : c.Encloses stop body) : c.rest.length = body.length + stop := by
  obtain ⟨close, after, hc, -, rfl⟩ := h
  rw [hc, List.length_append, List.length_cons]

theorem stop_pos (h : c.Encloses stop body) : 1 ≤ stop := by
  obtain ⟨close, after, -, -, rfl⟩ := h
  omega

/-- What leaves enough of the source stays inside. -/
theorem advance (h : c.Encloses stop body) (hp : c.Passes t d) (hd : stop ≤ d.rest.length) :
    ∃ u, body = t ++ u ∧ d.Encloses stop u := by
  have hlength := h.length
  obtain ⟨close, after, hc, hclose, rfl⟩ := h
  have heq : t ++ d.rest = body ++ close :: after := by rw [← hp.rest_eq, hc]
  rcases Text.append_eq_append_cons heq with ⟨u, -, hrest⟩ | ⟨u, hu, hrest⟩
  · -- the text passed over would have to take the closing bracket with it
    have hlen := congrArg List.length hrest
    rw [List.length_append] at hlen
    omega
  · exact ⟨u, hu, close, after, hrest, hclose, rfl⟩

/-- A closing bracket is neither blank nor part of a separator. -/
theorem of_isClosing {close : Char} (h : Brackets.isClosing close = true) :
    Text.isBlank close = false ∧ separates close = false := by
  rcases Brackets.isClosing_cases h with rfl | rfl | rfl <;> decide

/-- A separator stays inside. -/
theorem separator {sep : Separator} (h : c.Encloses stop body) (hsep : sep.startsIn c.rest = true) :
    stop ≤ (c.advance sep.text.length).rest.length := by
  have hlength := h.length
  obtain ⟨close, after, hc, hclose, rfl⟩ := h
  rw [hc] at hsep
  have hle := sep.length_le_of_startsIn (of_isClosing hclose).2 hsep
  rw [rest_advance, List.length_drop, hlength]
  omega

/-- Blanks stay inside. -/
theorem blanks (h : c.Encloses stop body) : stop ≤ c.skipBlanks.rest.length := by
  obtain ⟨close, after, hc, hclose, rfl⟩ := h
  obtain ⟨b, hp, hb, -⟩ := passes_skipBlanks c
  have heq : b ++ c.skipBlanks.rest = body ++ close :: after := by rw [← hp.rest_eq, hc]
  rcases Text.append_eq_append_cons heq with ⟨u, hu, -⟩ | ⟨u, -, hrest⟩
  · have hblank := hb close (by rw [hu]; simp)
    rw [(of_isClosing hclose).1] at hblank
    exact absurd hblank (by decide)
  · rw [hrest, List.length_append, List.length_cons]
    omega

end Encloses
end Cursor

namespace ClassList

/-! ## Texts of trees -/

/-- All characters of the text are blank. -/
def Blank (t : Text) : Prop := ∀ ch ∈ t, Text.isBlank ch = true

/-- A mark of importance, or nothing. -/
def bang (important : Bool) : Text := if important then ['!'] else []

mutual

/-- The variant is the text `t` at the offset `start`, all of its brackets closed. -/
def Variant.Laid (sep : Separator) (start : Nat) (t : Text) : Variant → Prop
  | .named source head => source = ⟨start, t⟩ ∧ head.closed = true ∧ head.Laid start t []
  | .selector source inner => source = ⟨start, t⟩ ∧ Brackets.Boxed '[' inner true start t []
  | .group source members =>
    source = ⟨start, t⟩ ∧ ∃ body close, Brackets.isClosing close = true ∧
      t = '(' :: (body ++ [close]) ∧ MembersLaid sep (start + 1) body members

/-- The links are the text `t`; a separator follows every link but perhaps the last. -/
def ChainLaid (sep : Separator) (start : Nat) (t : Text) : List Variant → Prop
  | [] => t = []
  | v :: rest => ∃ tv tail u, t = tv ++ tail ++ u ∧ v.Laid sep start tv ∧
      (tail = sep.text ∨ tail = [] ∧ rest = []) ∧
      ChainLaid sep (start + Text.bytes (tv ++ tail)) u rest

/-- The chains are the text `t`, apart from blanks. -/
def MembersLaid (sep : Separator) (start : Nat) (t : Text) : List (List Variant) → Prop
  | [] => Blank t
  | links :: rest => ∃ b tl u, t = b ++ tl ++ u ∧ Blank b ∧ links ≠ [] ∧
      ChainLaid sep (start + Text.bytes b) tl links ∧
      MembersLaid sep (start + Text.bytes (b ++ tl)) u rest

end

mutual

/-- The expression is the text `t` at the offset `start`, with `after` behind it.  Where
something is not closed there is nothing behind it. -/
def Expr.Laid (sep : Separator) (start : Nat) (t after : Text) : Expr → Prop
  | .utility source head important => source = ⟨start, t⟩ ∧ ∃ before behind u,
      t = bang before ++ u ++ bang behind ∧ important = (behind || before) ∧
      head.Laid (start + Text.bytes (bang before)) u (bang behind ++ after)
  | .property source value important closed => source = ⟨start, t⟩ ∧ ∃ before behind u,
      t = bang before ++ u ++ bang behind ∧ important = (behind || before) ∧
      Brackets.Boxed '[' value closed (start + Text.bytes (bang before)) u
        (bang behind ++ after)
  | .group source members important closed => source = ⟨start, t⟩ ∧ ∃ before behind body,
      t = bang before ++ '(' :: (body ++ if closed then ')' :: bang behind else []) ∧
      important = (behind || before) ∧ (closed = false → behind = false ∧ after = []) ∧
      ExprsLaid sep (start + Text.bytes (bang before) + 1) body
        (if closed then ')' :: (bang behind ++ after) else []) members
  | .span source variant none => source = ⟨start, t⟩ ∧ ∃ tv,
      t = tv ++ sep.text ∧ variant.Laid sep start tv
  | .span source variant (some child) => source = ⟨start, t⟩ ∧ ∃ tv u,
      t = tv ++ sep.text ++ u ∧ variant.Laid sep start tv ∧
      child.Laid sep (start + Text.bytes (tv ++ sep.text)) u after

/-- The expressions are the text `t`, apart from blanks. -/
def ExprsLaid (sep : Separator) (start : Nat) (t after : Text) : List Expr → Prop
  | [] => Blank t
  | e :: rest => ∃ b te u, t = b ++ te ++ u ∧ Blank b ∧
      e.Laid sep (start + Text.bytes b) te (u ++ after) ∧
      ExprsLaid sep (start + Text.bytes (b ++ te)) u after rest

end

/-! ## Closed heads -/

theorem Modifier.Laid.of_closed {m : Modifier} {start : Nat} {t after : Text}
    (h : m.Laid start t after) (hclosed : m.closed = true) (after' : Text) :
    m.Laid start t after' := by
  rcases h with ⟨hw, u, ht, hboxed⟩ | hplain
  · rw [hclosed] at hboxed
    exact Or.inl ⟨hw, u, ht, by rw [hclosed]; exact hboxed⟩
  · exact Or.inr hplain

/-- A closed head lies in its text whatever comes behind it. -/
theorem Head.Laid.of_closed {head : Head} {start : Nat} {t after : Text}
    (h : head.Laid start t after) (hclosed : head.closed = true) (after' : Text) :
    head.Laid start t after' := by
  have modifier : ∀ (m : Option Modifier) (s : Nat) (u : Text), m.all Modifier.closed = true →
      ModifierLaid m s u after → ModifierLaid m s u after' := by
    intro m s u hm hlaid
    cases m with
    | none => exact hlaid
    | some m => exact Modifier.Laid.of_closed hlaid hm after'
  cases head with
  | plain name m =>
    obtain ⟨hname, core, u, ht, hm⟩ := h
    exact ⟨hname, core, u, ht, modifier m _ u (by simpa [closed, Head.modifier] using hclosed) hm⟩
  | bracketed lead value m closed =>
    obtain ⟨hm', rfl⟩ : m.all Modifier.closed = true ∧ closed = true := by
      simpa [Head.closed, Head.modifier] using hclosed
    obtain ⟨hlead, hyphen, box, u, hhyphen, ht, hboxed, hm⟩ := h
    exact ⟨hlead, hyphen, box, u, hhyphen, ht, hboxed, modifier m _ u hm' hm⟩

/-- With something behind it a head is closed. -/
theorem Head.Laid.closed_of_ne_nil {head : Head} {start : Nat} {t after : Text}
    (h : head.Laid start t after) (hafter : after ≠ []) : head.closed = true := by
  have boxed : ∀ (v : Slice) (b : Bool) (s : Nat) (u r : Text), r ≠ [] →
      Brackets.Boxed '[' v b s u r → b = true := by
    intro v b s u r hr hboxed
    cases b with
    | true => rfl
    | false => exact absurd hboxed.2.2 hr
  have modifier : ∀ (m : Option Modifier) (s : Nat) (u : Text),
      ModifierLaid m s u after → m.all Modifier.closed = true := by
    intro m s u hlaid
    cases m with
    | none => rfl
    | some m =>
      rcases hlaid with ⟨-, v, -, hboxed⟩ | ⟨-, hclosed, -⟩
      · exact boxed _ _ _ _ _ hafter hboxed
      · exact hclosed
  cases head with
  | plain name m =>
    obtain ⟨-, core, u, -, hm⟩ := h
    simpa [Head.closed, Head.modifier] using modifier m _ u hm
  | bracketed lead value m closed =>
    obtain ⟨-, hyphen, box, u, -, -, hboxed, hm⟩ := h
    have hne : u ++ after ≠ [] := fun h => hafter (List.append_eq_nil_iff.mp h).2
    simp [Head.closed, Head.modifier, modifier m _ u hm, boxed _ _ _ _ _ hne hboxed]

/-! ## Derivations are laid out -/

namespace Head

/-- A name that is all of its text. -/
theorem laid_of_name (name : Slice) (after : Text) :
    (plain name none).Laid name.start name.text after :=
  ⟨rfl, name.text, [], by rw [List.append_nil], rfl⟩

/-- A head that leaves something of the source is closed. -/
theorem read?_closed {sep : Separator} {c d : Cursor} {head : Head}
    (h : read? sep c = some (head, d)) (hd : 1 ≤ d.rest.length) :
    ∃ ch t, c.Passes (ch :: t) d ∧ isNameChar ch = true ∧ head.closed = true ∧
      head.Laid c.offset (ch :: t) [] := by
  obtain ⟨ch, t, hp, hch, hlaid⟩ := read?_laid h
  have hclosed : head.closed = true :=
    hlaid.closed_of_ne_nil (List.ne_nil_of_length_pos hd)
  exact ⟨ch, t, hp, hch, hclosed, hlaid.of_closed hclosed []⟩

end Head

/-- A bracket at the cursor, closed or not. -/
theorem boxed_of_isAt {c d : Cursor} {op : Char} {closed : Bool}
    (hop : Brackets.isOpening op = true) (hat : c.isAt op = true)
    (hd : c.advance (Brackets.closing c).length = d)
    (hclosed : (Brackets.closing c).closed = closed) :
    ∃ t, t ≠ [] ∧ c.Passes t d ∧
      Brackets.Boxed op (Brackets.inner c (Brackets.closing c)) closed c.offset t d.rest := by
  obtain ⟨r, hr⟩ := Cursor.isAt_iff.mp hat
  obtain ⟨t, hp, -, hboxed⟩ := Brackets.boxed_closing hop hr
  rw [hd] at hp hboxed
  rw [hclosed] at hboxed
  refine ⟨t, ?_, hp, hboxed⟩
  rintro rfl
  obtain ⟨-, htext⟩ := hboxed
  cases closed with
  | true =>
    obtain ⟨close, -, ht⟩ := htext
    exact absurd ht (by simp)
  | false => exact absurd htext.1 (by simp)

/-- A bracket that leaves something of the source is closed. -/
theorem closed_of_stop {c d : Cursor} {op : Char} (hop : Brackets.isOpening op = true)
    (hat : c.isAt op = true) (hd : c.advance (Brackets.closing c).length = d)
    (hne : 1 ≤ d.rest.length) : (Brackets.closing c).closed = true := by
  cases hclosed : (Brackets.closing c).closed with
  | true => rfl
  | false =>
    obtain ⟨t, -, -, -, -, hnil⟩ := boxed_of_isAt hop hat hd hclosed
    rw [hnil] at hne
    exact absurd hne (by decide)

theorem boxed_of_stop {c d : Cursor} {op : Char} (hop : Brackets.isOpening op = true)
    (hat : c.isAt op = true) (hd : c.advance (Brackets.closing c).length = d)
    (hne : 1 ≤ d.rest.length) :
    ∃ t, t ≠ [] ∧ c.Passes t d ∧ c.ahead (Brackets.closing c).length = ⟨c.offset, t⟩ ∧
      Brackets.Boxed op (Brackets.inner c (Brackets.closing c)) true c.offset t [] := by
  obtain ⟨t, htne, hp, hstart, htext⟩ :=
    boxed_of_isAt hop hat hd (closed_of_stop hop hat hd hne)
  have hahead : c.ahead (Brackets.closing c).length = ⟨c.offset, t⟩ := by
    rw [← hp.upTo, ← hd, (Cursor.passes_advance c _).upTo]
    rfl
  exact ⟨t, htne, hp, hahead, hstart, htext⟩

/-- Behind a bracket that closes its contents are ahead, and then the bracket that closes it. -/
theorem encloses_of_closed {c d : Cursor} {op : Char} (hop : Brackets.isOpening op = true)
    (hat : c.isAt op = true) (hd : c.advance (Brackets.closing c).length = d)
    (hclosed : (Brackets.closing c).closed = true) :
    (c.advance 1).Encloses (d.rest.length + 1) (Brackets.inner c (Brackets.closing c)).text := by
  obtain ⟨t, -, hp, -, htext⟩ := boxed_of_isAt hop hat hd hclosed
  rw [if_pos rfl] at htext
  obtain ⟨close, hclose, rfl⟩ := htext
  refine ⟨close, d.rest, ?_, hclose, rfl⟩
  rw [Cursor.rest_advance, hp.rest_eq]
  simp

/-- A run up to the next blank stays inside of its group. -/
theorem roomLength_le {stop : Nat} {c : Cursor} (h : stop < c.rest.length) :
    roomLength stop c ≤ c.rest.length - stop := by
  have htake : (c.rest.take (c.rest.length - stop)).length = c.rest.length - stop := by
    rw [List.length_take]
    omega
  have hle := (List.takeWhile_sublist (fun ch => !Text.isBlank ch)
    (l := (c.rest.take (c.rest.length - stop)).drop 1)).length_le
  rw [List.length_drop, htake] at hle
  unfold roomLength
  omega

mutual

/-- A variant lies in the text that is read for it. -/
theorem ReadsVariant.laid {sep : Separator} {stop : Nat} {c d : Cursor} {v : Variant}
    (hstop : 1 ≤ stop) :
    ReadsVariant sep stop c v d →
      ∃ t, t ≠ [] ∧ c.Passes t d ∧ stop ≤ d.rest.length ∧ v.Laid sep c.offset t
  | .named hread hd => by
    obtain ⟨ch, t, hp, -, hclosed, hlaid⟩ := Head.read?_closed hread (by omega)
    exact ⟨ch :: t, List.cons_ne_nil _ _, hp, hd, hp.upTo, hclosed, hlaid⟩
  | .selector hat hadvance hd => by
    obtain ⟨t, hne, hp, hahead, hboxed⟩ := boxed_of_stop (by decide) hat hadvance (by omega)
    exact ⟨t, hne, hp, hd, hahead, hboxed⟩
  | .group hat hclosed hadvance hd hmembers => by
    obtain ⟨t, hne, hp, hahead, hstart, htext⟩ :=
      boxed_of_stop (by decide) hat hadvance (by omega)
    rw [if_pos rfl] at htext
    obtain ⟨close, hclose, rfl⟩ := htext
    have hopen : c.Passes ['('] (c.advance 1) := Cursor.passes_advance_of_append hp.rest_eq
    have hoffset : (c.advance 1).offset = c.offset + 1 := hopen.offset
    have hlaid := ReadsChains.laid (encloses_of_closed (by decide) hat hadvance hclosed) hmembers
    rw [hoffset] at hlaid
    exact ⟨_, hne, hp, hd, hahead, _, close, hclose, rfl, hlaid⟩

/-- The links of a chain lie in the text that is read for them, inside of the group. -/
theorem ReadsChain.laid {sep : Separator} {stop : Nat} {c d : Cursor} {body : Text}
    {links : List Variant} (hbody : c.Encloses stop body) :
    ReadsChain sep stop c links d →
      ∃ t, (links ≠ [] → t ≠ []) ∧ c.Passes t d ∧ stop ≤ d.rest.length ∧
        ChainLaid sep c.offset t links
  | .done _ => by
    have hlength := hbody.length
    exact ⟨[], fun h => absurd rfl h, Cursor.passes_nil c, by omega, rfl⟩
  | .last _ _ hv _ => by
    obtain ⟨t, hne, hp, hd, hlaid⟩ := hv.laid hbody.stop_pos
    refine ⟨t, fun _ => hne, hp, hd, t, [], [], by simp, hlaid, Or.inr ⟨rfl, rfl⟩, rfl⟩
  | .link (d := a) _ _ hv hsep hlinks => by
    obtain ⟨t, hne, hp, hd, hlaid⟩ := hv.laid hbody.stop_pos
    obtain ⟨u, rfl, hu⟩ := hbody.advance hp hd
    obtain ⟨w, hw⟩ := sep.startsIn_iff.mp hsep
    have hpass : a.Passes sep.text (a.advance sep.text.length) :=
      Cursor.passes_advance_of_append hw
    obtain ⟨u', rfl, hu'⟩ := hu.advance hpass (hu.separator hsep)
    obtain ⟨t', -, hp', hd', hlaid'⟩ := ReadsChain.laid hu' hlinks
    have hboth := hp.trans hpass
    rw [hboth.offset] at hlaid'
    refine ⟨t ++ sep.text ++ t', fun _ => ?_, hboth.trans hp', hd', t, sep.text, t', rfl, hlaid,
      Or.inl rfl, hlaid'⟩
    rw [List.append_assoc]
    exact List.append_ne_nil_of_left_ne_nil hne _

/-- The chains of a group are its text. -/
theorem ReadsChains.laid {sep : Separator} {stop : Nat} {c : Cursor} {body : Text}
    {members : List (List Variant)} (hbody : c.Encloses stop body) :
    ReadsChains sep stop c members → MembersLaid sep c.offset body members
  | .done hend => by
    obtain ⟨b, hp, hb, -⟩ := Cursor.passes_skipBlanks c
    obtain ⟨u, rfl, hu⟩ := hbody.advance hp hbody.blanks
    have hlength := hu.length
    obtain rfl : u = [] := List.eq_nil_of_length_eq_zero (by omega)
    rw [List.append_nil]
    exact hb
  | .stray hstop _ hmembers => by
    obtain ⟨b, hp, hb, -⟩ := Cursor.passes_skipBlanks c
    obtain ⟨u, rfl, hu⟩ := hbody.advance hp hbody.blanks
    have hroom := roomLength_le hstop
    have hpass := Cursor.passes_advance c.skipBlanks (roomLength stop c.skipBlanks)
    obtain ⟨u', rfl, hu'⟩ := hu.advance hpass (by rw [Cursor.rest_advance, List.length_drop]; omega)
    have hlaid := ReadsChains.laid hu' hmembers
    have hboth := hp.trans hpass
    rw [hboth.offset] at hlaid
    refine ⟨b, _, u', by rw [List.append_assoc], hb, List.cons_ne_nil _ _, ?_, hlaid⟩
    rw [← hp.offset]
    exact ⟨_, [], [], by rw [List.append_nil, List.append_nil],
      ⟨rfl, rfl, Head.laid_of_name _ _⟩, Or.inr ⟨rfl, rfl⟩, rfl⟩
  | .chain hstop hchain hmembers => by
    obtain ⟨b, hp, hb, -⟩ := Cursor.passes_skipBlanks c
    obtain ⟨u, rfl, hu⟩ := hbody.advance hp hbody.blanks
    obtain ⟨t, -, hp', hd, hlaid⟩ := ReadsChain.laid hu hchain
    obtain ⟨u', rfl, hu'⟩ := hu.advance hp' hd
    have hlaid' := ReadsChains.laid hu' hmembers
    have hboth := hp.trans hp'
    rw [hboth.offset] at hlaid'
    rw [hp.offset] at hlaid
    exact ⟨b, t, u', by rw [List.append_assoc], hb, List.cons_ne_nil _ _, hlaid, hlaid'⟩

end

theorem marks_false (c : Cursor) : Marks false c c := rfl

theorem Marks.passes {important : Bool} {c d : Cursor} (h : Marks important c d) :
    c.Passes (bang important) d := by
  cases important with
  | false =>
    obtain rfl : c = d := h
    exact Cursor.passes_nil c
  | true =>
    obtain ⟨hat, rfl⟩ : c.isAt '!' = true ∧ c.advance 1 = d := h
    obtain ⟨r, hr⟩ := Cursor.isAt_iff.mp hat
    exact Cursor.passes_advance_of_append hr

theorem passes_takeBang (c : Cursor) : c.Passes (bang (takeBang c).1) (takeBang c).2 := by
  unfold takeBang
  split
  next hat =>
    obtain ⟨r, hr⟩ := Cursor.isAt_iff.mp hat
    exact Cursor.passes_advance_of_append hr
  next => exact Cursor.passes_nil c

/-- A stray run passes over at least one character. -/
theorem passes_stray (inGroup : Bool) {c : Cursor} (h : c.rest ≠ []) :
    ∃ t, t ≠ [] ∧ c.Passes t (stray inGroup c).2 ∧
      (stray inGroup c).1 = .utility ⟨c.offset, t⟩ (.plain ⟨c.offset, t⟩ none) false := by
  refine ⟨_, ?_, Cursor.passes_advance c _, rfl⟩
  obtain ⟨x, r, hr⟩ := List.exists_cons_of_ne_nil h
  rw [hr, Nat.add_comm, List.take_succ_cons]
  exact List.cons_ne_nil _ _

mutual

/-- An expression lies in the text that is read for it. -/
theorem Reads.laid {sep : Separator} {inGroup : Bool} {c d : Cursor} {e : Expr} :
    Reads sep inGroup c e d →
      ∃ t, t ≠ [] ∧ c.Passes t d ∧ e.Laid sep c.offset t d.rest
  | .stray hend _ => by
    obtain ⟨t, hne, hp, hexpr⟩ := passes_stray inGroup (fun h => hend (Or.inl h))
    rw [hexpr]
    exact ⟨t, hne, hp, rfl, false, false, t, by simp [bang], rfl, Head.laid_of_name _ _⟩
  | .utility (d := a) hmarks hread _ => by
    obtain ⟨ch, t, hp, -, hlaid⟩ := Head.read?_laid hread
    have hbang := passes_takeBang a
    have hall := (hmarks.passes.trans hp).trans hbang
    rw [hmarks.passes.offset, hbang.rest_eq] at hlaid
    exact ⟨_, by simp, hall, hall.upTo, _, _, ch :: t, rfl, rfl, hlaid⟩
  | .property (d := a) hmarks hat _ hd hclosed => by
    obtain ⟨t, hne, hp, hboxed⟩ := boxed_of_isAt (by decide) hat hd hclosed
    have hbang := passes_takeBang a
    have hall := (hmarks.passes.trans hp).trans hbang
    rw [hmarks.passes.offset, hbang.rest_eq] at hboxed
    exact ⟨_, by simp [hne], hall, hall.upTo, _, _, t, rfl, rfl, hboxed⟩
  | @Reads.openProperty _ _ important _ _ _ hmarks hat hd hclosed => by
    obtain ⟨t, hne, hp, hboxed⟩ := boxed_of_isAt (by decide) hat hd hclosed
    have hall := hmarks.passes.trans hp
    rw [hmarks.passes.offset] at hboxed
    exact ⟨_, by simp [hne], hall, hall.upTo, important, false, t, by simp [bang], rfl, hboxed⟩
  | @Reads.group _ _ _ _ start a b _ hmarks hat _ hmembers hclose hb => by
    obtain ⟨r, hr⟩ := Cursor.isAt_iff.mp hat
    obtain ⟨r', hr'⟩ := Cursor.isAt_iff.mp hclose
    obtain ⟨body, hp, -, hlaid⟩ := ReadsAll.laid hmembers
    have hopen : start.Passes ['('] (start.advance 1) := Cursor.passes_advance_of_append hr
    have hshut : a.Passes [')'] b := hb ▸ Cursor.passes_advance_of_append hr'
    have hbang := passes_takeBang b
    have hall := (((hmarks.passes.trans hopen).trans hp).trans hshut).trans hbang
    rw [(hmarks.passes.trans hopen).offset, hshut.rest_eq, hbang.rest_eq] at hlaid
    refine ⟨_, by simp, hall, hall.upTo, _, _, body, by simp, rfl, by simp, ?_⟩
    rw [if_pos rfl]
    rwa [Text.bytes_append, ← Nat.add_assoc] at hlaid
  | @Reads.openGroup _ _ important _ start _ _ hmarks hat _ hmembers hclose => by
    obtain ⟨r, hr⟩ := Cursor.isAt_iff.mp hat
    obtain ⟨body, hp, hend, hlaid⟩ := ReadsAll.laid hmembers
    have hopen : start.Passes ['('] (start.advance 1) := Cursor.passes_advance_of_append hr
    have hall := (hmarks.passes.trans hopen).trans hp
    -- reading stopped short of a parenthesis, hence at the end of the source
    have hnil : d.rest = [] := by
      rcases hend with hnil | ⟨-, hat'⟩
      · exact hnil
      · rw [hclose] at hat'
        exact absurd hat' (by decide)
    rw [(hmarks.passes.trans hopen).offset, hnil] at hlaid
    refine ⟨_, by simp, hall, hall.upTo, important, false, body, by simp, rfl,
      fun _ => ⟨rfl, hnil⟩, ?_⟩
    rw [if_neg (by decide)]
    rwa [Text.bytes_append, ← Nat.add_assoc] at hlaid
  | .bare (d := a) hv hsep he _ => by
    obtain ⟨t, hne, hp, -, hlaid⟩ := hv.laid (Nat.le_refl 1)
    obtain ⟨r, hr⟩ := sep.startsIn_iff.mp hsep
    have hpass : a.Passes sep.text d := he ▸ Cursor.passes_advance_of_append hr
    have hall := hp.trans hpass
    exact ⟨_, by simp [hne], hall, hall.upTo, t, rfl, hlaid⟩
  | .span (d := a) (e := b) hv hsep he _ hchild => by
    obtain ⟨t, hne, hp, -, hlaid⟩ := hv.laid (Nat.le_refl 1)
    obtain ⟨r, hr⟩ := sep.startsIn_iff.mp hsep
    have hpass : a.Passes sep.text b := he ▸ Cursor.passes_advance_of_append hr
    obtain ⟨u, -, hp', hlaid'⟩ := Reads.laid hchild
    have hall := (hp.trans hpass).trans hp'
    rw [(hp.trans hpass).offset] at hlaid'
    exact ⟨_, by simp [hne], hall, hall.upTo, t, u, rfl, hlaid, hlaid'⟩

/-- Expressions lie in the text that is read for them, up to the end of the source or of
the group. -/
theorem ReadsAll.laid {sep : Separator} {inGroup : Bool} {c d : Cursor} {es : List Expr} :
    ReadsAll sep inGroup c es d →
      ∃ t, c.Passes t d ∧ AtEnd inGroup d ∧ ExprsLaid sep c.offset t d.rest es
  | .done hend => by
    obtain ⟨b, hp, hb, -⟩ := Cursor.passes_skipBlanks c
    exact ⟨b, hp, hend, hb⟩
  | .next hfirst hrest => by
    obtain ⟨b, hp, hb, -⟩ := Cursor.passes_skipBlanks c
    obtain ⟨t, -, hp', hlaid⟩ := Reads.laid hfirst
    obtain ⟨u, hp'', hend, hlaid'⟩ := ReadsAll.laid hrest
    have hboth := hp.trans hp'
    rw [hboth.offset] at hlaid'
    rw [hp.offset, hp''.rest_eq] at hlaid
    exact ⟨b ++ t ++ u, hboth.trans hp'', hend, b, t, u, rfl, hb, hlaid, hlaid'⟩

end

end ClassList
end UtilityCss
