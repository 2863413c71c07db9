import UtilityCss.Proofs.Bytewise.Head

/-!
# The reader by byte offsets reads the same

The reader by byte offsets and the reader of places call themselves alike, so both are followed
together.  Where the one is at the offset of a place, the other is at the place, and what they
read and where they stop agrees (`Follows`).  A group of variants ends at an offset that is
computed from the scanner for brackets; it is the offset of the place in front of the bracket
(`exists_limit`), and one offset is behind another just if the place is (`offset_le_offset_iff`).
-/

namespace UtilityCss
namespace Bytewise

open ClassList

variable {sep : Separator} {source : Text}

/-! ## Runs up to a limit -/

/-- A run that ends in front of the last `stop` characters at the latest. -/
theorem runBy_limit (q : Text → Bool) (stop : Nat) : ∀ t : Text,
    runBy (fun t => decide (stop < t.length) && q t) t = min (runBy q t) (t.length - stop)
  | [] => by simp [runBy]
  | ch :: t => by
    rw [runBy, runBy, runBy_limit q stop t, List.length_cons]
    by_cases hstop : stop < t.length + 1
    · rw [decide_eq_true hstop, Bool.true_and]
      split
      · omega
      · rw [Nat.zero_min]
    · rw [decide_eq_false hstop, Bool.false_and, if_neg Bool.false_ne_true]
      omega

/-- A run by offsets in front of a limit ends where the run along the text does. -/
theorem runEnd?_limit {c e : Cursor} (hc : c.source = source) (he : e.source = source)
    (p : Char → Bool) :
    runEnd? source (fun pos ch => decide (pos < e.offset) && p ch) source.length c.offset =
      some
        (c.advance (min (c.rest.takeWhile p).length (c.rest.length - e.rest.length))).offset := by
  rw [← runBy_takeWhile, ← runBy_limit]
  refine runEnd?_offset hc (fun d ch t hd hrest => ?_) (length_rest_le hc)
  have hle := Cursor.offset_le_offset_iff (he.trans hd.symm)
  rw [← hrest]
  congr 1
  · rw [decide_eq_decide]
    omega
  · rw [hrest, List.head?_cons, Option.any_some]

/-! ## Variants -/

/-- The place in front of the bracket that closes a range. -/
theorem exists_limit {c : Cursor} {op : Char} {r : Text} (hc : c.source = source)
    (hop : Brackets.isOpening op = true) (hrest : c.rest = op :: r)
    (hclosed : (Brackets.closing c).closed = true) :
    ∃ e : Cursor, e.source = source ∧
      e.offset = (c.advance (Brackets.closing c).length).offset - 1 ∧
      e.rest.length = (c.advance (Brackets.closing c).length).rest.length + 1 := by
  obtain ⟨t, hp, -, -, hboxed⟩ := Brackets.boxed_closing hop hrest
  rw [hclosed, if_pos rfl] at hboxed
  obtain ⟨close, hclose, rfl⟩ := hboxed
  generalize (Brackets.inner c (Brackets.closing c)).text = value at hp
  generalize c.advance (Brackets.closing c).length = after at hp
  have hsplit : c.rest = (op :: value) ++ close :: after.rest := by
    rw [hp.rest_eq]
    simp
  have hfront := Cursor.passes_advance_of_append hsplit
  refine ⟨c.advance (op :: value).length, by rw [Cursor.source_advance, hc], ?_, ?_⟩
  · rw [hfront.offset, hp.offset, ← List.cons_append, Text.bytes_append, Text.bytes_cons close,
      Brackets.utf8Size_of_isClosing hclose]
    exact (Nat.add_sub_cancel (c.offset + Text.bytes (op :: value)) 1).symm
  · rw [Cursor.rest_advance_of_append hsplit, List.length_cons]

theorem offset_next {c : Cursor} {op : Char} {r : Text} (hop : op.utf8Size = 1)
    (hrest : c.rest = op :: r) : c.offset + 1 = (c.advance 1).offset := by
  rw [Cursor.offset_advance_one, hrest, List.head?_cons, Option.elim_some, hop]

mutual

theorem chains?_offset {e : Cursor} (he : e.source = source) : ∀ (fuel : Nat) {c : Cursor},
    c.source = source →
    chains? sep source e.offset fuel c.offset = some (chains sep e.rest.length fuel c)
  | 0, c, _ => by rw [chains?, chains]
  | fuel + 1, c, hc => by
    rw [chains?, chains, runEnd?_limit hc he]
    simp only [Option.bind_eq_bind, Option.bind_some]
    generalize hm : min (c.rest.takeWhile Text.isBlank).length (c.rest.length - e.rest.length) = m
    have hlimit := Cursor.offset_le_offset_iff (c := e) (d := c.advance m)
      (by rw [Cursor.source_advance, he, hc])
    have hrest (n : Nat) : (c.advance n).rest.length = c.rest.length - n := by
      rw [Cursor.rest_advance, List.length_drop]
    by_cases hend : c.skipBlanks.rest.length ≤ e.rest.length
    · rw [if_pos hend, if_pos]
      · rfl
      · rw [hlimit, hrest]
        rw [Cursor.skipBlanks, hrest] at hend
        omega
    -- the limit is not reached, so all blanks have been passed over
    have hskip : c.advance m = c.skipBlanks := by
      rw [Cursor.skipBlanks]
      congr 1
      rw [Cursor.skipBlanks, hrest] at hend
      omega
    rw [if_neg hend, if_neg (by rw [hlimit, hskip]; exact hend), hskip]
    have hnext : c.skipBlanks.source = source := by
      rw [Cursor.skipBlanks, Cursor.source_advance, hc]
    obtain ⟨hchain, hsource⟩ := chain?_offset he fuel hnext
    rw [hchain, Option.bind_some]
    generalize chain sep e.rest.length fuel c.skipBlanks = r at hsource
    obtain ⟨links, after⟩ := r
    cases links with
    | nil =>
      have hone : (c.skipBlanks.advance 1).source = source := by rw [Cursor.source_advance, hnext]
      generalize c.skipBlanks = d at *
      have hstray : min (((d.advance 1).rest.takeWhile fun ch => !Text.isBlank ch).length)
          ((d.advance 1).rest.length - e.rest.length) =
          (((d.rest.take (d.rest.length - e.rest.length)).drop 1).takeWhile
            fun ch => !Text.isBlank ch).length := by
        rw [Cursor.rest_advance, List.drop_take, ← List.take_takeWhile, List.length_take,
          List.length_drop]
        omega
      dsimp only
      rw [peek?_offset hnext, Option.bind_some, ← Cursor.offset_advance_one,
        runEnd?_limit hone he, hstray, Cursor.advance_advance, Option.bind_some,
        slice?_ahead hnext, Option.bind_some,
        chains?_offset he fuel (by rw [Cursor.source_advance, hnext])]
      rfl
    | cons v links =>
      dsimp only
      rw [chains?_offset he fuel hsource]
      rfl

theorem chain?_offset {e : Cursor} (he : e.source = source) : ∀ (fuel : Nat) {c : Cursor},
    c.source = source →
    chain? sep source e.offset fuel c.offset =
        some ((chain sep e.rest.length fuel c).1, (chain sep e.rest.length fuel c).2.offset) ∧
      (chain sep e.rest.length fuel c).2.source = source
  | 0, c, hc => by
    rw [chain?, chain]
    exact ⟨rfl, hc⟩
  | fuel + 1, c, hc => by
    have hlimit := Cursor.offset_le_offset_iff (he.trans hc.symm)
    obtain ⟨hlink, hsource⟩ := link?_offset he fuel hc
    rw [chain?, chain]
    by_cases hlen : c.rest.length ≤ e.rest.length
    · rw [if_pos (hlimit.mpr hlen), decide_eq_true hlen, Bool.true_or, if_pos rfl]
      exact ⟨rfl, hc⟩
    rw [if_neg fun h => hlen (hlimit.mp h), decide_eq_false hlen, Bool.false_or, peek?_offset hc]
    simp only [Option.bind_eq_bind, Option.bind_some]
    cases hrest : c.rest with
    | nil =>
      rw [Cursor.isAtGap, hrest]
      exact ⟨rfl, hc⟩
    | cons ch t =>
      have hgap : c.isAtGap = Text.isBlank ch := by rw [Cursor.isAtGap, hrest]
      rw [hgap]
      dsimp only [List.head?_cons]
      cases Text.isBlank ch with
      | true => exact ⟨rfl, hc⟩
      | false =>
        rw [if_neg Bool.false_ne_true, if_neg Bool.false_ne_true, hlink, Option.bind_some]
        cases hread : ClassList.link? sep e.rest.length fuel c with
        | none => exact ⟨rfl, hc⟩
        | some r =>
          obtain ⟨v, after⟩ := r
          have hafter : after.source = source := hsource _ hread
          rw [Option.map_some]
          dsimp only
          rw [standsAt_offset hafter]
          cases hsep : sep.startsIn after.rest with
          | false => exact ⟨rfl, hafter⟩
          | true =>
            obtain ⟨hchain, hend⟩ := chain?_offset he fuel
              (c := after.advance sep.text.length) (by rw [Cursor.source_advance, hafter])
            rw [if_pos rfl, if_pos rfl, ← offset_separator hsep, hchain]
            exact ⟨rfl, hend⟩

theorem link?_offset {e : Cursor} (he : e.source = source) : ∀ (fuel : Nat) {c : Cursor},
    c.source = source →
    link? sep source e.offset fuel c.offset =
        some ((ClassList.link? sep e.rest.length fuel c).map fun r => (r.1, r.2.offset)) ∧
      ∀ r ∈ ClassList.link? sep e.rest.length fuel c, r.2.source = source
  | 0, c, hc => by
    rw [link?, ClassList.link?]
    exact ⟨rfl, fun r hr => absurd hr (by simp)⟩
  | fuel + 1, c, hc => by
    have hend : (c.advance (Brackets.closing c).length).source = source := by
      rw [Cursor.source_advance, hc]
    have hlimit (d : Cursor) (hd : d.source = source) :
        e.offset < d.offset ↔ d.rest.length < e.rest.length := by
      have := Cursor.offset_le_offset_iff (hd.trans he.symm)
      omega
    rw [link?, ClassList.link?, isAt_place hc (by decide), isAt_place hc (by decide),
      closing_offset hc]
    cases hbracket : c.isAt '[' with
    | true =>
      obtain ⟨r, hr⟩ := Cursor.isAt_iff.mp hbracket
      rw [if_pos rfl, if_pos rfl]
      dsimp only
      by_cases hover : (c.advance (Brackets.closing c).length).rest.length < e.rest.length
      · rw [if_pos hover, if_pos ((hlimit _ hend).mpr hover)]
        exact ⟨rfl, fun r hr => absurd hr (by simp)⟩
      · rw [if_neg hover, if_neg fun h => hover ((hlimit _ hend).mp h)]
        have hinner := inner?_offset hc (by decide) hr
        rw [closing_offset hc] at hinner
        rw [slice?_ahead hc, hinner]
        refine ⟨rfl, fun r hr => ?_⟩
        obtain rfl := Option.some.inj hr
        exact hend
    | false =>
      rw [if_neg Bool.false_ne_true, if_neg Bool.false_ne_true]
      cases hparen : c.isAt '(' with
      | true =>
        obtain ⟨r, hr⟩ := Cursor.isAt_iff.mp hparen
        rw [if_pos rfl, if_pos rfl]
        dsimp only
        have hover : decide (e.offset < (c.advance (Brackets.closing c).length).offset) =
            decide ((c.advance (Brackets.closing c).length).rest.length < e.rest.length) :=
          decide_eq_decide.mpr (hlimit _ hend)
        rw [hover]
        split
        · exact ⟨rfl, fun r hr => absurd hr (by simp)⟩
        next hcond =>
          rw [Bool.or_eq_true, not_or, Bool.not_eq_true', Bool.not_eq_false] at hcond
          obtain ⟨e', he', hoffset, hlength⟩ := exists_limit hc (by decide) hr hcond.1
          rw [slice?_ahead hc, ← hoffset, ← hlength, offset_next (by decide) hr,
            chains?_offset he' fuel (by rw [Cursor.source_advance, hc])]
          refine ⟨rfl, fun r hr => ?_⟩
          obtain rfl := Option.some.inj hr
          exact hend
      | false =>
        rw [if_neg Bool.false_ne_true, if_neg Bool.false_ne_true, head?_offset hc]
        cases hread : Head.read? sep c with
        | none => exact ⟨rfl, fun r hr => absurd hr (by simp)⟩
        | some r =>
          obtain ⟨head, after⟩ := r
          obtain ⟨ch, t, hp, -, -⟩ := Head.read?_laid hread
          have hreach : c.Reaches after := ⟨_, hp⟩
          have hafter : after.source = source := by rw [hreach.source, hc]
          simp only [Option.bind_eq_bind, Option.bind_some, Option.map_some]
          by_cases hover : after.rest.length < e.rest.length
          · rw [if_pos hover, if_pos ((hlimit _ hafter).mpr hover)]
            exact ⟨rfl, fun r hr => absurd hr (by simp)⟩
          · rw [if_neg hover, if_neg fun h => hover ((hlimit _ hafter).mp h), slice?_upTo hc hreach]
            refine ⟨rfl, fun r hr => ?_⟩
            obtain rfl := Option.some.inj hr
            exact hafter

end

/-! ## Expressions -/

/-- A reader by offsets gives what a reader of places gives that starts at `c` and does not go
back. -/
def Follows {α : Type} (c : Cursor) (r : Option (α × Nat)) (s : α × Cursor) : Prop :=
  r = some (s.1, s.2.offset) ∧ c.Reaches s.2

theorem stray?_offset {c : Cursor} (hc : c.source = source) (inGroup : Bool) :
    Follows c (stray? source inGroup c.offset) (stray inGroup c) := by
  have hone : (c.advance 1).source = source := by rw [Cursor.source_advance, hc]
  refine ⟨?_, c.reaches_advance _⟩
  rw [stray?, peek?_offset hc]
  simp only [Option.bind_eq_bind, Option.bind_some]
  rw [← Cursor.offset_advance_one, runEnd?_offset
      (q := fun t => t.head?.any fun ch => !Text.isBlank ch && !(inGroup && ch = ')')) hone
      (fun d ch t _ _ => rfl) (length_rest_le hone),
    runBy_takeWhile, Cursor.advance_advance, Option.bind_some, slice?_ahead hc]
  rfl

theorem takeBang_offset {c : Cursor} (hc : c.source = source) :
    takeBang source c.offset = ((ClassList.takeBang c).1, (ClassList.takeBang c).2.offset) ∧
      c.Reaches (ClassList.takeBang c).2 := by
  rw [takeBang, ClassList.takeBang, isAt_place hc (by decide)]
  cases hat : c.isAt '!' with
  | false => exact ⟨rfl, c.reaches_refl⟩
  | true =>
    obtain ⟨r, hr⟩ := Cursor.isAt_iff.mp hat
    exact ⟨congrArg (Prod.mk true) (offset_next (by decide) hr), c.reaches_advance 1⟩

theorem groupVariant?_offset {c : Cursor} (hc : c.source = source) (hat : c.isAt '(' = true)
    (hclosed : (Brackets.closing c).closed = true) (fuel : Nat) :
    groupVariant? sep source fuel c.offset (closing source c.offset) =
      some (groupVariant sep fuel c (Brackets.closing c)) := by
  obtain ⟨r, hr⟩ := Cursor.isAt_iff.mp hat
  obtain ⟨e, he, hoffset, hlength⟩ := exists_limit hc (by decide) hr hclosed
  rw [groupVariant?, closing_offset hc]
  dsimp only
  rw [slice?_ahead hc, ← hoffset, offset_next (by decide) hr,
    chains?_offset he fuel (by rw [Cursor.source_advance, hc]), groupVariant, hlength]
  rfl

theorem skipBlanks_offset {c : Cursor} (hc : c.source = source) :
    runEnd? source (fun _ ch => Text.isBlank ch) source.length c.offset =
      some c.skipBlanks.offset := by
  rw [runEnd?_offset (q := fun t => t.head?.any Text.isBlank) hc (fun d ch t _ _ => rfl)
    (length_rest_le hc), runBy_takeWhile]
  rfl

mutual

theorem exprs?_offset (inGroup : Bool) : ∀ (fuel : Nat) {c : Cursor}, c.source = source →
    Follows c (exprs? sep source inGroup fuel c.offset) (exprs sep inGroup fuel c)
  | 0, c, hc => by
    rw [exprs?, exprs]
    exact ⟨rfl, c.reaches_refl⟩
  | fuel + 1, c, hc => by
    have hreach : c.Reaches c.skipBlanks := c.reaches_advance _
    have hnext : c.skipBlanks.source = source := by rw [hreach.source, hc]
    obtain ⟨hexpr, hfurther⟩ := expr?_offset inGroup fuel hnext
    rw [exprs?, exprs, skipBlanks_offset hc]
    simp only [Option.bind_eq_bind, Option.bind_some]
    rw [hexpr, Option.bind_some]
    cases hread : ClassList.expr? sep inGroup fuel c.skipBlanks with
    | none => exact ⟨rfl, hreach⟩
    | some r =>
      obtain ⟨e, after⟩ := r
      have hafter : c.skipBlanks.Reaches after := hfurther _ hread
      obtain ⟨hmore, hend⟩ := exprs?_offset inGroup fuel (c := after) (by rw [hafter.source, hnext])
      dsimp only [Option.map_some]
      rw [hmore]
      exact ⟨rfl, hreach.trans (hafter.trans hend)⟩

theorem expr?_offset (inGroup : Bool) : ∀ (fuel : Nat) {c : Cursor}, c.source = source →
    expr? sep source inGroup fuel c.offset =
        some ((ClassList.expr? sep inGroup fuel c).map fun r => (r.1, r.2.offset)) ∧
      ∀ r ∈ ClassList.expr? sep inGroup fuel c, c.Reaches r.2
  | 0, c, hc => by
    rw [expr?, ClassList.expr?]
    exact ⟨rfl, fun r hr => absurd hr (by simp)⟩
  | fuel + 1, c, hc => by
    have hplace : (place source c.offset).rest = Text.octets c.rest := by
      rw [← hc, place_offset]
    rw [expr?, ClassList.expr?, hplace]
    cases hrest : c.rest with
    | nil => exact ⟨rfl, fun r hr => absurd hr (by simp)⟩
    | cons ch t =>
      obtain ⟨octet, hoctet, hsame⟩ := Text.exists_head_octets ch t
      have hopening : Brackets.isOpening octet = Brackets.isOpening ch := by
        simp only [Brackets.isOpening, hsame '(' rfl, hsame '[' rfl, hsame '\x7b' rfl]
      have hclosing : Brackets.isClosing octet = Brackets.isClosing ch := by
        simp only [Brackets.isClosing, hsame ')' rfl, hsame ']' rfl, hsame '\x7d' rfl]
      -- what one of the readers for a shape gives is what the reader gives
      have settle {r : Option (Expr × Nat)} {s : Expr × Cursor} (h : Follows c r s) :
          (do return some (← r) : Option (Option (Expr × Nat))) =
              some ((some s).map fun r => (r.1, r.2.offset)) ∧
            ∀ r ∈ some s, c.Reaches r.2 := by
        rw [h.1]
        exact ⟨rfl, fun r hr => Option.some.inj hr ▸ h.2⟩
      have hat (y : Char) (hy : ch = y) : c.isAt y = true := Cursor.isAt_iff.mpr ⟨t, hy ▸ hrest⟩
      rw [hoctet]
      simp only [hsame ')' rfl, hsame '!' rfl, hsame '(' rfl, hsame '[' rfl, hopening, hclosing]
      split
      · exact ⟨rfl, fun r hr => absurd hr (by simp)⟩
      split
      next hbang =>
        have hone : (c.advance 1).source = source := by rw [Cursor.source_advance, hc]
        have hnext : (c.advance 1).rest = t := by rw [Cursor.rest_advance, hrest]; rfl
        have hreach : c.Reaches (c.advance 1) := c.reaches_advance 1
        rw [offset_next (by decide) (hbang ▸ hrest), peek?_offset hone, standsAt_offset hone, hnext]
        simp only [Option.bind_eq_bind, Option.bind_some]
        cases t with
        | nil => exact settle (stray?_offset hc inGroup)
        | cons next u =>
          have hat (y : Char) (hy : next = y) : (c.advance 1).isAt y = true :=
            Cursor.isAt_iff.mpr ⟨u, hy ▸ hnext⟩
          dsimp only [List.head?_cons]
          split
          next hparen => exact settle (paren?_offset inGroup true hc fuel hreach (hat _ hparen))
          split
          next hbracket =>
            exact settle (bracket?_offset inGroup true hc fuel hreach (hat _ hbracket))
          split
          · exact settle (name?_offset inGroup true hc fuel hreach)
          · exact settle (stray?_offset hc inGroup)
      split
      next hparen =>
        exact settle (paren?_offset inGroup false hc fuel c.reaches_refl (hat _ hparen))
      split
      next hbracket =>
        exact settle (bracket?_offset inGroup false hc fuel c.reaches_refl (hat _ hbracket))
      split
      · exact settle (stray?_offset hc inGroup)
      · exact settle (name?_offset inGroup false hc fuel c.reaches_refl)

theorem name?_offset (inGroup important : Bool) {start : Cursor} (hs : start.source = source) :
    ∀ (fuel : Nat) {c : Cursor}, start.Reaches c →
      Follows start (name? sep source inGroup important start.offset fuel c.offset)
        (name sep inGroup important start fuel c)
  | 0, c, hc => by
    rw [name?, name]
    exact stray?_offset hs inGroup
  | fuel + 1, c, hc => by
    have hsource : c.source = source := by rw [hc.source, hs]
    rw [name?, name, head?_offset hsource]
    simp only [Option.bind_eq_bind, Option.bind_some]
    cases hread : Head.read? sep c with
    | none => exact stray?_offset hs inGroup
    | some r =>
      obtain ⟨head, after⟩ := r
      obtain ⟨ch, t, hp, -, -⟩ := Head.read?_laid hread
      have hreach : c.Reaches after := ⟨_, hp⟩
      have hafter : after.source = source := by rw [hreach.source, hsource]
      dsimp only [Option.map_some]
      rw [standsAt_offset hafter]
      split
      next hsep =>
        rw [Bool.and_eq_true] at hsep
        rw [slice?_upTo hsource hreach, Option.bind_some, ← offset_separator hsep.2]
        exact applied?_offset inGroup hs _ fuel ((hc.trans hreach).advance _)
      next =>
        obtain ⟨hbang, hend⟩ := takeBang_offset hafter
        have hstop := hc.trans (hreach.trans hend)
        rw [hbang]
        dsimp only
        rw [slice?_upTo hs hstop]
        exact ⟨rfl, hstop⟩

theorem paren?_offset (inGroup important : Bool) {start : Cursor} (hs : start.source = source) :
    ∀ (fuel : Nat) {c : Cursor}, start.Reaches c → c.isAt '(' = true →
      Follows start (paren? sep source inGroup important start.offset fuel c.offset)
        (paren sep inGroup important start fuel c)
  | 0, c, hc, hat => by
    rw [paren?, paren]
    exact stray?_offset hs inGroup
  | fuel + 1, c, hc, hat => by
    have hsource : c.source = source := by rw [hc.source, hs]
    have hreach : c.Reaches (c.advance (Brackets.closing c).length) := c.reaches_advance _
    have hafter : (c.advance (Brackets.closing c).length).source = source := by
      rw [hreach.source, hsource]
    obtain ⟨r, hr⟩ := Cursor.isAt_iff.mp hat
    rw [paren?, paren]
    dsimp only
    rw [closing_offset hsource, standsAt_offset hafter]
    split
    next hsep =>
      rw [Bool.and_eq_true, Bool.and_eq_true] at hsep
      have hgroup : groupVariant? sep source fuel c.offset (closing source c.offset) =
          some (groupVariant sep fuel c (Brackets.closing c)) :=
        groupVariant?_offset hsource hat hsep.1.2 fuel
      rw [closing_offset hsource] at hgroup
      rw [hgroup, ← offset_separator hsep.2]
      exact applied?_offset inGroup hs _ fuel ((hc.trans hreach).advance _)
    next =>
      obtain ⟨hmembers, hend⟩ := exprs?_offset true fuel (c := c.advance 1)
        (by rw [Cursor.source_advance, hsource])
      have hstop : start.Reaches (exprs sep true fuel (c.advance 1)).2 :=
        hc.trans ((c.reaches_advance 1).trans hend)
      have hinside : (exprs sep true fuel (c.advance 1)).2.source = source := by
        rw [hstop.source, hs]
      rw [offset_next (by decide) hr, hmembers]
      generalize exprs sep true fuel (c.advance 1) = read at *
      simp only [Option.bind_eq_bind, Option.bind_some]
      rw [isAt_place hinside (by decide)]
      cases hclose : read.2.isAt ')' with
      | true =>
        obtain ⟨u, hu⟩ := Cursor.isAt_iff.mp hclose
        obtain ⟨hbang, hend⟩ := takeBang_offset (c := read.2.advance 1)
          (by rw [Cursor.source_advance, hinside])
        have hlast := hstop.trans ((read.2.reaches_advance 1).trans hend)
        rw [if_pos rfl, if_pos rfl, offset_next (by decide) hu, hbang]
        dsimp only
        rw [slice?_upTo hs hlast]
        exact ⟨rfl, hlast⟩
      | false =>
        rw [if_neg Bool.false_ne_true, if_neg Bool.false_ne_true, slice?_upTo hs hstop]
        exact ⟨rfl, hstop⟩

theorem bracket?_offset (inGroup important : Bool) {start : Cursor} (hs : start.source = source) :
    ∀ (fuel : Nat) {c : Cursor}, start.Reaches c → c.isAt '[' = true →
      Follows start (bracket? sep source inGroup important start.offset fuel c.offset)
        (bracket sep inGroup important start fuel c)
  | 0, c, hc, hat => by
    rw [bracket?, bracket]
    exact stray?_offset hs inGroup
  | fuel + 1, c, hc, hat => by
    have hsource : c.source = source := by rw [hc.source, hs]
    have hreach : c.Reaches (c.advance (Brackets.closing c).length) := c.reaches_advance _
    have hafter : (c.advance (Brackets.closing c).length).source = source := by
      rw [hreach.source, hsource]
    obtain ⟨r, hr⟩ := Cursor.isAt_iff.mp hat
    have hinner := inner?_offset hsource (by decide) hr
    rw [closing_offset hsource] at hinner
    rw [bracket?, bracket]
    dsimp only
    rw [closing_offset hsource, hinner, standsAt_offset hafter]
    simp only [Option.bind_eq_bind, Option.bind_some]
    split
    next hsep =>
      rw [Bool.and_eq_true, Bool.and_eq_true] at hsep
      rw [slice?_ahead hsource, Option.bind_some, ← offset_separator hsep.2]
      exact applied?_offset inGroup hs _ fuel ((hc.trans hreach).advance _)
    next =>
      cases (Brackets.closing c).closed with
      | true =>
        obtain ⟨hbang, hend⟩ := takeBang_offset hafter
        have hstop := hc.trans (hreach.trans hend)
        rw [if_pos rfl, if_pos rfl, hbang]
        dsimp only
        rw [slice?_upTo hs hstop]
        exact ⟨rfl, hstop⟩
      | false =>
        rw [if_neg Bool.false_ne_true, if_neg Bool.false_ne_true]
        dsimp only
        rw [slice?_upTo hs (hc.trans hreach)]
        exact ⟨rfl, hc.trans hreach⟩

theorem applied?_offset (inGroup : Bool) {start : Cursor} (hs : start.source = source)
    (v : Variant) : ∀ (fuel : Nat) {c : Cursor}, start.Reaches c →
      Follows start (applied? sep source inGroup start.offset v fuel c.offset)
        (applied sep inGroup start v fuel c)
  | 0, c, hc => by
    rw [applied?, applied, slice?_upTo hs hc]
    exact ⟨rfl, hc⟩
  | fuel + 1, c, hc => by
    have hsource : c.source = source := by rw [hc.source, hs]
    have hgap : (c.rest.head?.all fun ch => Text.isBlank ch || ch = ')') =
        (c.isAtGap || c.isAt ')') := by
      rw [Cursor.isAtGap, Cursor.isAt]
      cases c.rest <;> rfl
    rw [applied?, applied, peek?_offset hsource]
    simp only [Option.bind_eq_bind, Option.bind_some]
    rw [hgap]
    cases c.isAtGap || c.isAt ')' with
    | true =>
      rw [if_pos rfl, if_pos rfl]
      dsimp only
      rw [slice?_upTo hs hc]
      exact ⟨rfl, hc⟩
    | false =>
      obtain ⟨hexpr, hfurther⟩ := expr?_offset inGroup fuel hsource
      rw [if_neg Bool.false_ne_true, if_neg Bool.false_ne_true, hexpr, Option.bind_some]
      cases hread : ClassList.expr? sep inGroup fuel c with
      | none =>
        dsimp only [Option.map_none]
        rw [slice?_upTo hs hc]
        exact ⟨rfl, hc⟩
      | some r =>
        have hstop : start.Reaches r.2 := hc.trans (hfurther _ hread)
        dsimp only [Option.map_some]
        rw [slice?_upTo hs hstop]
        exact ⟨rfl, hstop⟩

end

/-- The reader that cuts the source at byte offsets never cuts where it cannot, and reads what the
reader of places reads. -/
theorem read?_eq (sep : Separator) (source : Text) :
    read? sep source = some (ClassList.read sep source) := by
  have hstart : (Cursor.atStart source).source = source := Cursor.source_atStart source
  obtain ⟨hexprs, -⟩ : Follows (Cursor.atStart source)
      (exprs? sep source false (4 * source.length + 4) (Cursor.atStart source).offset)
      (exprs sep false (4 * source.length + 4) (Cursor.atStart source)) :=
    exprs?_offset false _ hstart
  have hwhole : slice? source 0 (Text.bytes source) = some ⟨0, source⟩ :=
    slice?_append (a := []) (r := []) (List.append_nil source).symm rfl (Nat.zero_add _).symm
  have hoffset : (Cursor.atStart source).offset = 0 := rfl
  rw [hoffset] at hexprs
  rw [read?, hexprs, hwhole]
  rfl

end Bytewise
end UtilityCss
