import UtilityCss.Proofs.Bytewise.Parser
import UtilityCss.Proofs.ClassList.HeadWithin

/-!
# Heads by byte offsets

The offset of a place is where the source can be cut (`from?_offset`), and between two places a
piece can be cut out (`slice?_passes`).  So it is enough that a reader by byte offsets is at a
place of the source wherever it cuts, and it is: a run passes over whole characters
(`runEnd?_offset`), the scanner for brackets stops at a place, and the ends that are moved by a
byte are moved over a bracket, a hyphen or a slash, which is found there.
-/

namespace UtilityCss

namespace Cursor

/-- The second place is the first one or further on. -/
def Reaches (c d : Cursor) : Prop := ∃ t, c.Passes t d

variable {c d e : Cursor}

theorem reaches_refl (c : Cursor) : c.Reaches c := ⟨[], passes_nil c⟩

theorem Reaches.trans (h : c.Reaches d) (h' : d.Reaches e) : c.Reaches e := by
  obtain ⟨t, ht⟩ := h
  obtain ⟨u, hu⟩ := h'
  exact ⟨t ++ u, ht.trans hu⟩

theorem reaches_advance (c : Cursor) (n : Nat) : c.Reaches (c.advance n) :=
  ⟨_, c.passes_advance n⟩

theorem Reaches.advance (h : c.Reaches d) (n : Nat) : c.Reaches (d.advance n) :=
  h.trans (reaches_advance d n)

theorem Reaches.source (h : c.Reaches d) : d.source = c.source := by
  obtain ⟨t, ht⟩ := h
  exact ht.source_eq

theorem advance_advance (c : Cursor) (m n : Nat) : (c.advance m).advance n = c.advance (m + n) := by
  have hbefore : ((c.rest.drop m).take n).reverse ++ ((c.rest.take m).reverse ++ c.before) =
      (c.rest.take (m + n)).reverse ++ c.before := by
    rw [← List.append_assoc, ← List.reverse_append, List.take_add]
  have hrest : (c.rest.drop m).drop n = c.rest.drop (m + n) := List.drop_drop
  rw [advance, rest_advance, hrest]
  exact congrArg (Cursor.mk · _) hbefore

/-- Passing one character changes the offset by its size. -/
theorem offset_advance_one (c : Cursor) :
    (c.advance 1).offset = c.offset + c.rest.head?.elim 0 Char.utf8Size := by
  rw [(c.passes_advance 1).offset]
  cases c.rest <;> simp

theorem offset_advance_eq_iff {n : Nat} (h : n ≤ c.rest.length) :
    (c.advance n).offset = c.offset ↔ n = 0 := by
  rw [(c.passes_advance n).offset, Nat.add_eq_left, Text.bytes_eq_zero_iff,
    ← List.length_eq_zero_iff, List.length_take, Nat.min_eq_left h]

/-- Of two places in one source the later one has the larger offset and less ahead. -/
theorem offset_le_offset_iff (h : c.source = d.source) :
    c.offset ≤ d.offset ↔ d.rest.length ≤ c.rest.length := by
  have hoffset (e : Cursor) : e.offset = Text.bytes e.before.reverse :=
    (Text.bytes_reverse e.before).symm
  rw [hoffset, hoffset]
  rcases List.append_eq_append_iff.mp h with ⟨v, hbefore, hrest⟩ | ⟨v, hbefore, hrest⟩
  · rw [hbefore, hrest, Text.bytes_append, List.length_append]
    omega
  · rw [hbefore, hrest, Text.bytes_append, List.length_append]
    have hzero : Text.bytes v = 0 ↔ v.length = 0 :=
      Text.bytes_eq_zero_iff.trans List.length_eq_zero_iff.symm
    omega

theorem length_rest_le (c : Cursor) : c.rest.length ≤ c.source.length := by
  rw [source, List.length_append]
  omega

end Cursor

namespace Separator

theorem standsAt_append (sep : Separator) (t : Text) : ∀ a : Text,
    sep.standsAt (a ++ t) (Text.bytes a) = sep.startsIn t
  | [] => by cases t <;> rfl
  | ch :: a => by
    have hsize := ch.utf8Size_pos
    obtain ⟨n, hn⟩ : ∃ n, ch.utf8Size + Text.bytes a = n + 1 :=
      ⟨ch.utf8Size + Text.bytes a - 1, by omega⟩
    have hrest : n + 1 - ch.utf8Size = Text.bytes a := by omega
    rw [Text.bytes_cons, hn, List.cons_append, standsAt, if_pos (by omega), hrest,
      standsAt_append sep t a]

end Separator

namespace Bytewise

open ClassList

variable {sep : Separator} {source : Text} {c d : Cursor}

/-! ## Single operations -/

/-- At a place the source can be cut. -/
theorem from?_offset (hc : c.source = source) : source.from? c.offset = some c.rest := by
  have hfrom := Text.from?_append c.before.reverse c.rest
  rwa [Text.bytes_reverse, ← Cursor.source, hc] at hfrom

theorem peek?_offset (hc : c.source = source) : peek? source c.offset = some c.rest.head? := by
  rw [peek?, from?_offset hc, Option.map_some]

/-- A text with others around it can be cut out. -/
theorem slice?_append {a b r : Text} {start stop : Nat} (hsource : source = a ++ (b ++ r))
    (hstart : start = Text.bytes a) (hstop : stop = start + Text.bytes b) :
    slice? source start stop = some ⟨start, b⟩ := by
  rw [slice?, hstop, hstart, hsource, Text.between?_append, Option.map_some]

/-- Between two places the source can be cut. -/
theorem slice?_passes (hc : c.source = source) {t : Text} (h : c.Passes t d) :
    slice? source c.offset d.offset = some ⟨c.offset, t⟩ := by
  refine slice?_append (r := d.rest) ?_ (Text.bytes_reverse c.before).symm h.offset
  rw [← hc, Cursor.source, h.rest_eq]

theorem slice?_upTo (hc : c.source = source) (h : c.Reaches d) :
    slice? source c.offset d.offset = some (c.upTo d) := by
  obtain ⟨t, ht⟩ := h
  rw [slice?_passes hc ht, ht.upTo]

theorem slice?_ahead (hc : c.source = source) (n : Nat) :
    slice? source c.offset (c.advance n).offset = some (c.ahead n) :=
  slice?_passes hc (c.passes_advance n)

theorem standsAt_offset (hc : c.source = source) (sep : Separator) :
    sep.standsAt source c.offset = sep.startsIn c.rest := by
  have hstands := sep.standsAt_append c.rest c.before.reverse
  rw [Text.bytes_reverse] at hstands
  rw [← hc]
  exact hstands

/-- Behind the separator there is a place. -/
theorem offset_separator (h : sep.startsIn c.rest = true) :
    (c.advance sep.text.length).offset = c.offset + Text.bytes sep.text := by
  obtain ⟨u, hu⟩ := sep.startsIn_iff.mp h
  exact (Cursor.passes_advance_of_append hu).offset

/-! ## Runs -/

/-- The number of characters at the beginning of a text up to the first ending of the text that
does not satisfy the condition. -/
def runBy (q : Text → Bool) : Text → Nat
  | [] => 0
  | ch :: t => if q (ch :: t) then runBy q t + 1 else 0

theorem runBy_le (q : Text → Bool) : ∀ t : Text, runBy q t ≤ t.length
  | [] => Nat.le_refl 0
  | ch :: t => by
    have ih := runBy_le q t
    rw [runBy, List.length_cons]
    split <;> omega

theorem runBy_takeWhile (p : Char → Bool) : ∀ t : Text,
    runBy (fun t => t.head?.any p) t = (t.takeWhile p).length
  | [] => rfl
  | ch :: t => by
    rw [runBy, runBy_takeWhile p t, List.head?_cons, Option.any_some, List.takeWhile_cons]
    split <;> rfl

theorem runBy_runLength (p : Char → Bool) (sep : Separator) : ∀ t : Text,
    runBy (fun t => t.head?.any p && !sep.startsIn t) t = runLength p sep t
  | [] => rfl
  | ch :: t => by
    rw [runBy, runLength, runBy_runLength p sep t, List.head?_cons, Option.any_some]

/-- A run by offsets ends where the run along the text does. -/
theorem runEnd?_offset {passes : Nat → Char → Bool} {q : Text → Bool} : ∀ {fuel : Nat} {c : Cursor},
    c.source = source →
    (∀ (d : Cursor) (ch : Char) (t : Text), d.source = source → d.rest = ch :: t →
      passes d.offset ch = q (ch :: t)) →
    c.rest.length ≤ fuel →
    runEnd? source passes fuel c.offset = some (c.advance (runBy q c.rest)).offset
  | 0, c, _, _, hfuel => by
    have hnil : c.rest = [] := List.length_eq_zero_iff.mp (by omega)
    rw [runEnd?, hnil, runBy, (c.passes_advance 0).offset]
    simp
  | fuel + 1, c, hc, hq, hfuel => by
    have hzero : (c.advance 0).offset = c.offset := by
      rw [(c.passes_advance 0).offset]
      simp
    rw [runEnd?, peek?_offset hc]
    cases hrest : c.rest with
    | nil => exact congrArg some hzero.symm
    | cons ch t =>
      have hpasses := hq c ch t hc hrest
      have hnext : (c.advance 1).rest = t := by rw [Cursor.rest_advance, hrest]; rfl
      have hsize : (c.advance 1).offset = c.offset + ch.utf8Size := by
        rw [Cursor.offset_advance_one, hrest]
        rfl
      have ih : runEnd? source passes fuel (c.offset + ch.utf8Size) =
          some (c.advance (1 + runBy q t)).offset := by
        rw [← hsize, runEnd?_offset (by rw [Cursor.source_advance, hc]) hq
          (by rw [hnext]; rw [hrest, List.length_cons] at hfuel; omega), hnext,
          Cursor.advance_advance]
      simp only [List.head?_cons, Option.bind_eq_bind, Option.bind_some, hpasses, runBy]
      split
      · rw [ih, Nat.add_comm]
      · exact congrArg some hzero.symm

/-! ## Heads -/

theorem length_rest_le (hc : c.source = source) : c.rest.length ≤ source.length := by
  rw [← hc]
  exact c.length_rest_le

theorem nameEnd?_offset (hc : c.source = source) :
    nameEnd? sep source c.offset = some (c.advance (nameLength sep c.rest)).offset := by
  rw [nameLength_eq, ← runBy_runLength]
  exact runEnd?_offset hc (fun d ch t hd hrest => by rw [standsAt_offset hd, hrest]; rfl)
    (length_rest_le hc)

theorem modifierEnd?_offset (hc : c.source = source) :
    modifierEnd? sep source c.offset = some (c.advance (modifierLength sep c.rest)).offset := by
  rw [modifierLength_eq, ← runBy_runLength]
  exact runEnd?_offset hc (fun d ch t hd hrest => by rw [standsAt_offset hd, hrest]; rfl)
    (length_rest_le hc)

/-- Behind an opening bracket and in front of a closing one the source can be cut. -/
theorem inner?_offset (hc : c.source = source) {op : Char} {r : Text}
    (hop : Brackets.isOpening op = true) (hrest : c.rest = op :: r) :
    inner? source c.offset (closing source c.offset) =
      some (Brackets.inner c (Brackets.closing c)) := by
  obtain ⟨t, hp, -, hstart, hboxed⟩ := Brackets.boxed_closing hop hrest
  generalize hinner : Brackets.inner c (Brackets.closing c) = inner at hstart hboxed
  generalize hafter : c.advance (Brackets.closing c).length = after at hp hboxed
  -- whatever is behind the value, it can be cut out
  have cut : ∀ behind stop, c.rest = op :: (inner.text ++ behind) →
      stop = c.offset + 1 + Text.bytes inner.text →
      slice? source (c.offset + 1) stop = some inner := by
    intro behind stop hsplit hstop
    rw [slice?_append (a := c.before.reverse ++ [op]) (r := behind) ?_ ?_ hstop, ← hstart]
    · rw [← hc, Cursor.source, hsplit]
      simp
    · rw [Text.bytes_append, Text.bytes_reverse, Text.bytes_cons, Text.bytes_nil,
        Brackets.utf8Size_of_isOpening hop, Cursor.offset]
  rw [inner?, closing_offset hc, hafter, hp.offset]
  cases hclosed : (Brackets.closing c).closed with
  | true =>
    rw [hclosed, if_pos rfl] at hboxed
    obtain ⟨close, hclose, rfl⟩ := hboxed
    rw [if_pos rfl]
    refine cut (close :: after.rest) _ (by rw [hp.rest_eq]; simp) ?_
    rw [Text.bytes_cons, Text.bytes_append, Text.bytes_cons, Text.bytes_nil,
      Brackets.utf8Size_of_isOpening hop, Brackets.utf8Size_of_isClosing hclose]
    omega
  | false =>
    rw [hclosed, if_neg Bool.false_ne_true] at hboxed
    obtain ⟨rfl, hnil⟩ := hboxed
    rw [if_neg Bool.false_ne_true]
    refine cut [] _ (by rw [hp.rest_eq, hnil]; simp) ?_
    rw [Text.bytes_cons, Brackets.utf8Size_of_isOpening hop, Nat.add_assoc]

/-- Behind the last slash of a plain name the source can be cut. -/
theorem ownModifier?_offset (hc : c.source = source) (n : Nat) :
    ownModifier? source (c.ahead n) = some (Head.ownModifier? (c.ahead n)) := by
  rw [ownModifier?, Head.ownModifier?, Text.lastOffset?]
  cases hcut : Text.cutAtLast? (· = '/') (c.ahead n).text with
  | none => rfl
  | some parts =>
    obtain ⟨core, last⟩ := parts
    obtain ⟨ch, hslash, -, htext⟩ := Text.cutAtLast?_eq_some_iff.mp hcut
    obtain rfl : ch = '/' := of_decide_eq_true hslash
    have hbytes : Text.bytes (c.ahead n).text = Text.bytes core + 1 + Text.bytes last := by
      rw [htext, Text.bytes_append, Text.bytes_cons]
      exact (Nat.add_assoc ..).symm
    rw [Option.map_some]
    dsimp only
    cases last with
    | nil => rw [if_pos (by rw [hbytes]; rfl)]
    | cons x last =>
      have hpos := Text.bytes_pos (List.cons_ne_nil x last)
      have hslice : slice? source (c.offset + Text.bytes core + 1) (c.ahead n).stop =
          some ⟨c.offset + Text.bytes core + 1, x :: last⟩ := by
        refine slice?_append (a := c.before.reverse ++ (core ++ ['/'])) (r := (c.advance n).rest)
          ?_ ?_ ?_
        · have htake : c.rest.take n = core ++ '/' :: (x :: last) := htext
          rw [← hc, Cursor.source, (c.passes_advance n).rest_eq, htake]
          simp
        · rw [Text.bytes_append, Text.bytes_append, Text.bytes_reverse]
          exact Nat.add_assoc ..
        · rw [Slice.stop, hbytes]
          simp only [Cursor.ahead]
          omega
      have hdrop : (c.ahead n).drop (core.length + 1) =
          ⟨c.offset + Text.bytes core + 1, x :: last⟩ := by
        have hsplit : (c.ahead n).text = (core ++ ['/']) ++ (x :: last) := by
          rw [htext]
          simp
        have hlength : core.length + 1 = (core ++ ['/']).length := by simp
        rw [Slice.drop, hsplit, hlength, List.take_left' rfl, List.drop_left' rfl,
          Text.bytes_append]
        exact congrArg (Slice.mk · _) (Nat.add_assoc ..).symm
      rw [if_neg (by omega)]
      show Option.map _ _ =
        some (some (Modifier.mk ((c.ahead n).drop (core.length + 1)) false true))
      rw [hdrop]
      exact congrArg (Option.map _) hslice

theorem trailing?_offset (hc : c.source = source) :
    trailing? sep source c.offset =
      some ((Head.trailing? sep c).map fun r => (r.1, r.2.offset)) := by
  cases hat : c.isAt '/' with
  | false =>
    have hnone : ∀ t, c.rest ≠ '/' :: t := by
      intro t ht
      rw [Cursor.isAt_iff.mpr ⟨t, ht⟩] at hat
      exact absurd hat (by decide)
    rw [trailing?, isAt_place hc (by decide), hat, Head.trailing?_none hnone]
    rfl
  | true =>
    obtain ⟨t, ht⟩ := Cursor.isAt_iff.mp hat
    have hnext : (c.advance 1).source = source := by rw [Cursor.source_advance, hc]
    have hoffset : c.offset + 1 = (c.advance 1).offset := by
      rw [Cursor.offset_advance_one, ht]
      rfl
    have hrest : (c.advance 1).rest = t := by rw [Cursor.rest_advance, ht]; rfl
    rw [trailing?, isAt_place hc (by decide), hat, if_pos rfl, hoffset,
      isAt_place hnext (by decide)]
    cases hbox : (c.advance 1).isAt '[' with
    | true =>
      obtain ⟨u, hu⟩ := Cursor.isAt_iff.mp hbox
      rw [Head.trailing?_boxed sep (r := u) (by rw [ht, ← hrest, hu]), if_pos rfl]
      dsimp only
      rw [inner?_offset hnext (by decide) hu, closing_offset hnext]
      rfl
    | false =>
      have hplain : ∀ u, t ≠ '[' :: u := by
        intro u hu
        rw [Cursor.isAt_iff.mpr ⟨u, by rw [hrest, hu]⟩] at hbox
        exact absurd hbox (by decide)
      have hle : modifierLength sep t ≤ (c.advance 1).rest.length := by
        rw [modifierLength_eq, ← runBy_runLength, hrest]
        exact runBy_le _ t
      rw [if_neg Bool.false_ne_true, modifierEnd?_offset hnext, hrest,
        Head.trailing?_plain ht hplain]
      simp only [Option.bind_eq_bind, Option.bind_some]
      by_cases hzero : modifierLength sep t = 0
      · rw [if_pos ((Cursor.offset_advance_eq_iff hle).mpr hzero), if_pos hzero]
        rfl
      · rw [if_neg fun h => hzero ((Cursor.offset_advance_eq_iff hle).mp h), if_neg hzero,
          slice?_ahead hnext, Cursor.advance_advance, Nat.add_comm]
        rfl

/-- In front of the last hyphen of a name the source can be cut. -/
theorem slice?_lead (hc : c.source = source) {u r : Text} (hu : c.rest = u ++ r) :
    slice? source c.offset (if Text.endsWith u ['-'] then
        (c.advance u.length).offset - 1 else (c.advance u.length).offset) =
      some ⟨c.offset, Head.lead u⟩ := by
  have hp : c.Passes u (c.advance u.length) := Cursor.passes_advance_of_append hu
  cases hhyphen : Text.endsWith u ['-'] with
  | false =>
    rw [Head.lead, hhyphen]
    exact slice?_passes hc hp
  | true =>
    obtain ⟨w, rfl⟩ := Text.endsWith_iff.mp hhyphen
    have hstop : (c.advance (w ++ ['-']).length).offset - 1 = c.offset + Text.bytes w := by
      rw [hp.offset, Text.bytes_append]
      exact Nat.add_sub_cancel (c.offset + Text.bytes w) 1
    rw [if_pos rfl, hstop, Head.lead_hyphen]
    refine slice?_append (a := c.before.reverse) (r := '-' :: r) ?_
      (Text.bytes_reverse c.before).symm rfl
    rw [← hc, Cursor.source, hu]
    simp

theorem head?_offset (hc : c.source = source) :
    head? sep source c.offset = some ((Head.read? sep c).map fun r => (r.1, r.2.offset)) := by
  have hle : nameLength sep c.rest ≤ c.rest.length := by
    rw [nameLength_eq, ← runBy_runLength]
    exact runBy_le _ c.rest
  rw [head?, nameEnd?_offset hc]
  simp only [Option.bind_eq_bind, Option.bind_some]
  by_cases hzero : nameLength sep c.rest = 0
  · rw [if_pos ((Cursor.offset_advance_eq_iff hle).mpr hzero), Head.read?_eq_none hzero]
    rfl
  rw [if_neg fun h => hzero ((Cursor.offset_advance_eq_iff hle).mp h), slice?_ahead hc,
    Option.bind_some, isAt_place (by rw [Cursor.source_advance, hc]) (by decide)]
  -- the name as a text in front of the rest
  obtain ⟨u, r, hname⟩ := Head.exists_named hzero
  have hu := hname.rest_eq
  have hahead : c.ahead u.length = ⟨c.offset, u⟩ := Cursor.ahead_of_append hu
  have hnext : (c.advance u.length).source = source := by rw [Cursor.source_advance, hc]
  rw [hname.length, hahead]
  cases hat : (c.advance u.length).isAt '[' with
  | false =>
    have hown := ownModifier?_offset hc u.length
    rw [hahead] at hown
    rw [Head.read?_plain hname hat, if_neg Bool.false_ne_true, hown]
    rfl
  | true =>
    obtain ⟨v, hv⟩ := Cursor.isAt_iff.mp hat
    have hreach : c.Reaches ((c.advance u.length).advance
        (Brackets.closing (c.advance u.length)).length) := (c.reaches_advance _).advance _
    have hinner := inner?_offset hnext (by decide) hv
    rw [closing_offset hnext] at hinner
    rw [if_pos rfl, closing_offset hnext]
    dsimp only
    rw [hinner, Option.bind_some]
    cases hslash : Text.endsWith u ['/'] with
    | true =>
      rw [Head.read?_modified hname hat hslash, if_pos rfl, slice?_upTo hc hreach]
      rfl
    | false =>
      have hafter : ((c.advance u.length).advance
          (Brackets.closing (c.advance u.length)).length).source = source := by
        rw [Cursor.source_advance, hnext]
      rw [Head.read?_valued hname hat hslash, if_neg Bool.false_ne_true,
        slice?_lead hc hu, Option.bind_some]
      cases (Brackets.closing (c.advance u.length)).closed with
      | false => rfl
      | true =>
        rw [if_pos rfl, trailing?_offset hafter]
        dsimp only
        cases Head.trailing? sep ((c.advance u.length).advance
          (Brackets.closing (c.advance u.length)).length) <;> rfl

end Bytewise
end UtilityCss
