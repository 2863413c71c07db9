import UtilityCss.Proofs.Bracketed.Blanks
import UtilityCss.Proofs.ClassList.Juxtaposition
import UtilityCss.Proofs.ClassList.Modified

/-!
# Blanks around a single utility

A class list that is a single utility remains one with blanks around it, and without them.  The
blanks in front only move the utility.  Those behind it are left alone, unless one of its brackets
is open: then they belong to what the bracket holds, and `Head.extend` says which part that is.
-/

namespace UtilityCss

/-- The piece with the text `b` behind it. -/
def Slice.extend (b : Text) (s : Slice) : Slice := ⟨s.start, s.text ++ b⟩

variable {b b' front : Text} {n : Nat}

namespace Brackets

/-- An open bracket takes up the blanks at the end of the longer source. -/
theorem inner_within_of_open (hfront : SetOff front) (hb : ∀ ch ∈ b, Text.isBlank ch = true)
    {c : Cursor} (hne : c.rest ≠ []) (h : (closing c).closed = false) :
    (closing (c.within front b)).closed = false ∧
      inner (c.within front b) (closing (c.within front b)) =
        ((inner c (closing c)).extend b).shift (Text.bytes front) ∧
      ((c.within front b).advance (closing (c.within front b)).length).rest = [] := by
  have hopen := closed_within hfront (isClosing_blanks hb) h
  obtain ⟨hinner, hrest⟩ := inner_of_open hopen
  have hpos := List.length_pos_of_ne_nil hne
  have hstart : ((c.within front b).advance 1).offset =
      (c.advance 1).offset + Text.bytes front := by
    rw [Cursor.advance_within hpos, Cursor.offset_within]
  refine ⟨hopen, ?_, hrest⟩
  rw [Cursor.rest_within, List.drop_append_of_le_length hpos, ← (inner_of_open h).1] at hinner
  exact congrArg₂ Slice.mk hstart hinner

end Brackets

namespace ClassList

variable {sep : Separator} {c d : Cursor}

/-! ## Heads -/

/-- The modifier with `b` behind it, if it is open. -/
def Modifier.extend (b : Text) (m : Modifier) : Modifier :=
  if m.closed then m else { m with slice := m.slice.extend b }

namespace Head

/-- Is the bracket of the modifier closed, if there is one? -/
def modifierClosed (head : Head) : Bool := head.modifier.all Modifier.closed

/-- The head with `b` behind it, as a part of what is open. -/
def extend (b : Text) : Head → Head
  | plain name modifier =>
    plain (if modifier.all Modifier.closed then name else name.extend b)
      (modifier.map (Modifier.extend b))
  | bracketed lead value modifier closed =>
    bracketed lead (if closed then value else value.extend b) (modifier.map (Modifier.extend b))
      closed

theorem map_extend_of_closed {m : Option Modifier} (h : m.all Modifier.closed = true) :
    m.map (Modifier.extend b) = m := by
  cases m with
  | none => rfl
  | some m =>
    have hm : m.closed = true := h
    rw [Option.map_some, Modifier.extend, if_pos hm]

theorem extend_of_closed {head : Head} (h : head.closed = true) : head.extend b = head := by
  obtain ⟨hmodifier, hvalue⟩ := Bool.and_eq_true_iff.mp h
  cases head with
  | plain name m =>
    have hm : m.all Modifier.closed = true := hmodifier
    rw [extend, if_pos hm, map_extend_of_closed hm]
  | bracketed lead value m closed =>
    have hm : m.all Modifier.closed = true := hmodifier
    have hclosed : closed = true := hvalue
    rw [extend, if_pos hclosed, map_extend_of_closed hm]

theorem extend_nil (head : Head) : head.extend [] = head := by
  have hslice : ∀ s : Slice, s.extend [] = s := fun s => by rw [Slice.extend, List.append_nil]
  have hmap : ∀ m : Option Modifier, m.map (Modifier.extend []) = m := fun m => by
    cases m with
    | none => rfl
    | some m => rw [Option.map_some, Modifier.extend, hslice, ite_self]
  cases head <;> rw [extend, hmap, hslice, ite_self]

@[simp] theorem modifierClosed_extend (head : Head) :
    (head.extend b).modifierClosed = head.modifierClosed := by
  have hclosed : ∀ m : Modifier, (m.extend b).closed = m.closed := fun m => by
    rw [Modifier.extend]
    split <;> rfl
  have hall : ∀ m : Option Modifier,
      (m.map (Modifier.extend b)).all Modifier.closed = m.all Modifier.closed := fun m => by
    cases m with
    | none => rfl
    | some m => exact hclosed m
  cases head <;> exact hall _

@[simp] theorem closed_extend (head : Head) : (head.extend b).closed = head.closed := by
  have hmodifier : (head.extend b).modifier.all Modifier.closed =
      head.modifier.all Modifier.closed := modifierClosed_extend head
  unfold closed
  rw [hmodifier]
  cases head <;> rfl

@[simp] theorem modifierClosed_shift (head : Head) :
    (head.shift n).modifierClosed = head.modifierClosed := by
  rw [modifierClosed, modifier_shift, Option.all_map]
  rfl

/-- An open modifier takes up the blanks at the end of the longer source. -/
theorem trailing?_extend (hfront : SetOff front) (hb : ∀ ch ∈ b, Text.isBlank ch = true)
    {m : Modifier} (h : trailing? sep c = some (m, d)) (hopen : m.closed = false) :
    ∃ d', trailing? sep (c.within front b) = some ((m.extend b).shift (Text.bytes front), d') ∧
      d'.rest = [] := by
  by_cases hslash : ∃ t, c.rest = '/' :: t
  · obtain ⟨t, hc⟩ := hslash
    by_cases hbracket : ∃ r, t = '[' :: r
    · obtain ⟨r, rfl⟩ := hbracket
      have hc' : (c.within front b).rest = '/' :: '[' :: (r ++ b) := by
        rw [Cursor.rest_within, hc, List.cons_append, List.cons_append]
      have hone : 1 ≤ c.rest.length := by rw [hc, List.length_cons]; omega
      have hne : (c.advance 1).rest ≠ [] := by
        rw [Cursor.rest_advance, hc]
        exact List.cons_ne_nil _ _
      rw [trailing?_boxed sep hc] at h
      obtain ⟨rfl, -⟩ := Prod.mk.inj (Option.some.inj h)
      obtain ⟨hclosed', hinner', hrest'⟩ := Brackets.inner_within_of_open hfront hb hne hopen
      rw [trailing?_boxed sep hc', Cursor.advance_within hone, hclosed', hinner']
      refine ⟨_, ?_, hrest'⟩
      rw [Modifier.extend, if_neg (by rw [hopen]; exact Bool.false_ne_true)]
      dsimp only at hopen
      rw [hopen]
      rfl
    · -- a modifier without a bracket is closed
      rw [trailing?_plain hc fun r hr => hbracket ⟨r, hr⟩] at h
      split at h
      · cases h
      · obtain ⟨rfl, -⟩ := Prod.mk.inj (Option.some.inj h)
        cases hopen
  · rw [trailing?_none fun r hr => hslash ⟨r, hr⟩] at h
    cases h

/-- With something open a head is read up to the end of the source. -/
theorem rest_eq_nil_of_open {head : Head} (h : read? sep c = some (head, d))
    (hopen : head.closed = false) : d.rest = [] := by
  by_contra hne
  obtain ⟨-, -, -, -, hclosed, -⟩ := read?_closed h (List.length_pos_of_ne_nil hne)
  rw [hopen] at hclosed
  cases hclosed

/-- A head that is open takes up the blanks at the end of the longer source. -/
theorem read?_extend_of_open (hfront : SetOff front) (hb : ∀ ch ∈ b, Text.isBlank ch = true)
    {head : Head} (h : read? sep c = some (head, d)) (hopen : head.closed = false) :
    ∃ d', read? sep (c.within front b) = some ((head.extend b).shift (Text.bytes front), d') ∧
      d'.rest = [] := by
  have hback : SetOff b := (apart_of_blanks hb).setOff
  have hname : ∀ {u r : Text} {e : Cursor}, Named sep c u r → c.advance u.length = e →
      Named sep (c.within front b) u (r ++ b) ∧
        (c.within front b).advance u.length = e.within front b ∧
        (e.within front b).isAt '[' = e.isAt '[' := by
    rintro u r e hu rfl
    exact ⟨hu.within front (.inl hback), hu.advance_within front b, hu.isAt_within (.inl hback)⟩
  cases read?_eq_some_iff.mp h with
  | plain => exact absurd hopen (by rw [← plainHead, closed_plainHead]; decide)
  | @modified u r e d hu he hat hslash hd =>
    obtain ⟨hu', he', hat'⟩ := hname hu he
    have hk : (Brackets.closing e).closed = false := by simpa [closed, modifier] using hopen
    obtain ⟨hk', hinner', hrest'⟩ :=
      Brackets.inner_within_of_open hfront hb (Cursor.rest_ne_nil_of_isAt hat) hk
    have hreads := ReadsHead.modified hu' he' (hat'.trans hat) hslash rfl
    refine ⟨_, Eq.trans hreads.read?_eq ?_, hrest'⟩
    -- the name covers the modifier and so all that is left of the source
    have hall : ∀ {x y : Cursor}, y.rest = [] → x.upTo y = ⟨x.offset, x.rest⟩ := by
      intro x y hy
      rw [Cursor.upTo, hy, List.length_nil, Nat.sub_zero, Cursor.ahead, List.take_length]
    have hrest : d.rest = [] := hd.symm ▸ (Brackets.inner_of_open hk).2
    rw [hall hrest, hall hrest', Cursor.offset_within, Cursor.rest_within, hk', hinner', hk]
    rfl
  | @valued u r e d hu he hat hslash hd =>
    obtain ⟨hu', he', hat'⟩ := hname hu he
    have hk : (Brackets.closing e).closed = false := by simpa [closed, modifier] using hopen
    obtain ⟨hk', hinner', hrest'⟩ :=
      Brackets.inner_within_of_open hfront hb (Cursor.rest_ne_nil_of_isAt hat) hk
    have hreads := ReadsHead.valued hu' he' (hat'.trans hat) hslash rfl
      (fun hclosed => absurd (hclosed.symm.trans hk') (by decide))
    rw [hk', hinner', Cursor.offset_within] at hreads
    rw [hk]
    exact ⟨_, hreads.read?_eq, hrest'⟩
  | @modifiedValue u r e d _ m hu he hat hslash hd hk hm =>
    obtain ⟨hu', he', hat'⟩ := hname hu he
    have hle := Brackets.length_closing_le e
    have hk' : Brackets.closing (e.within front b) = Brackets.closing e :=
      Brackets.closing_within hfront (.inl hk)
    obtain ⟨d', hm', hd'⟩ := trailing?_extend hfront hb hm (by simpa [closed, modifier] using hopen)
    have hreads := ReadsHead.modifiedValue hu' he' (hat'.trans hat) hslash
      (by rw [hk', Cursor.advance_within hle, hd]) (hk' ▸ hk) hm'
    rw [hk', Brackets.inner_within (Cursor.rest_ne_nil_of_isAt hat) hle,
      Cursor.offset_within] at hreads
    exact ⟨d', hreads.read?_eq, hd'⟩

/-- A head that is read up to the end of the source is read with the blanks that follow there in
the longer source, and up to the end of that or to the blanks. -/
theorem read?_extend (hfront : SetOff front) (hb : ∀ ch ∈ b, Text.isBlank ch = true) {head : Head}
    (h : read? sep c = some (head, d)) (hd : d.rest = []) :
    ∃ d', read? sep (c.within front b) = some ((head.extend b).shift (Text.bytes front), d') ∧
      ∀ ch ∈ d'.rest, Text.isBlank ch = true := by
  cases hclosed : head.closed with
  | true =>
    have hback : SetOff b := (apart_of_blanks hb).setOff
    rw [extend_of_closed hclosed]
    refine ⟨_, read?_within hfront h (.inl hback) (.inl hclosed), ?_⟩
    rw [Cursor.rest_within, hd]
    exact hb
  | false =>
    obtain ⟨d', hread, hd'⟩ := read?_extend_of_open hfront hb h hclosed
    exact ⟨d', hread, by rw [hd']; simp⟩

end Head

/-! ## Single utilities -/

/-- What is a name or a bracket is one in front of what is set off as well. -/
theorem AtStray.of_within (hback : SetOff b) (h : AtStray sep (c.within front b)) :
    AtStray sep c := by
  intro important d hmarks
  obtain ⟨hread, hparen, hsquare⟩ := h important _ hmarks.within
  rw [Cursor.isAt_within (.inl hback) (by decide)] at hparen hsquare
  rw [Head.read?_eq_none_iff, Cursor.rest_within, nameLength_within (.inl hback)] at hread
  exact ⟨Head.read?_eq_none_iff.mpr hread, hparen, hsquare⟩

/-- From the place `c` an unmarked utility is read, and nothing but blanks is left behind it. -/
def ReadsSingle (sep : Separator) (c : Cursor) (head : Head) : Prop :=
  ∃ source d, Reads sep false c (.utility source head false) d ∧
    ∀ ch ∈ d.rest, Text.isBlank ch = true

/-- No mark and no separator begins with a blank. -/
theorem unmarked_blanks (sep : Separator) {t : Text} (ht : ∀ ch ∈ t, Text.isBlank ch = true) :
    sep.startsIn t = false ∧ t.head? ≠ some '!' := by
  refine ⟨?_, fun hbang => ?_⟩
  · have hwithin := sep.startsIn_within (apart_of_blanks ht).setOff []
    rwa [List.nil_append, sep.startsIn_nil] at hwithin
  · exact absurd (ht '!' (List.mem_of_head? hbang)) (by decide)

/-- The utility is a stray, or a head without a mark. -/
theorem readsSingle_iff {head : Head} : ReadsSingle sep c head ↔
    (c.rest ≠ [] ∧ AtStray sep c ∧ (∃ source, (stray false c).1 = .utility source head false) ∧
        ∀ ch ∈ (stray false c).2.rest, Text.isBlank ch = true) ∨
      ∃ d, Head.read? sep c = some (head, d) ∧ ∀ ch ∈ d.rest, Text.isBlank ch = true := by
  constructor
  · rintro ⟨source, d, hreads, hd⟩
    generalize he : Expr.utility source head false = e at hreads
    cases hreads with
    | stray hend hstray =>
      exact .inl ⟨fun hnil => hend (.inl hnil), hstray, ⟨source, he.symm⟩, hd⟩
    | @utility _ important _ start d head hmarks hread _ =>
      obtain ⟨-, rfl, hmarked⟩ := Expr.utility.inj he
      obtain ⟨hbang, rfl⟩ := Bool.or_eq_false_iff.mp hmarked.symm
      obtain rfl : c = start := hmarks
      have htake : takeBang d = (false, d) := by
        rw [takeBang] at hbang ⊢
        split at hbang
        · cases hbang
        · rename_i hat
          rw [if_neg hat]
      rw [htake] at hd
      exact .inr ⟨d, hread, hd⟩
    | _ => cases he
  · rintro (⟨hne, hstray, ⟨source, hsource⟩, hd⟩ | ⟨d, hread, hd⟩)
    · have hend : ¬ AtEnd false c := fun h =>
        h.elim hne fun hgroup => Bool.false_ne_true hgroup.1
      exact ⟨source, _, hsource ▸ .stray hend hstray, hd⟩
    · obtain ⟨hsep, hbang⟩ := unmarked_blanks sep hd
      have htake : takeBang d = (false, d) := by
        rw [takeBang, Cursor.isAt, if_neg (by simpa using hbang)]
      have hreads : Reads sep false c _ _ :=
        .utility (marks_false c) hread (by rw [hsep]; rfl)
      rw [htake] at hreads
      exact ⟨_, d, hreads, hd⟩

namespace ReadsSingle

variable {head : Head}

theorem rest_ne_nil (h : ReadsSingle sep c head) : c.rest ≠ [] := by
  rcases readsSingle_iff.mp h with ⟨hne, -⟩ | ⟨d, hread, -⟩
  · exact hne
  · obtain ⟨_, t, hp, -⟩ := Head.read?_laid hread
    rw [hp.rest_eq]
    exact List.cons_ne_nil _ _

/-- The utility is found in the longer source. -/
theorem within (hfront : SetOff front) (hb : ∀ ch ∈ b, Text.isBlank ch = true)
    (htrim : Text.trim c.rest = c.rest) (h : ReadsSingle sep c head) :
    ReadsSingle sep (c.within front b) ((head.extend b).shift (Text.bytes front)) := by
  have hback := apart_of_blanks hb
  rw [readsSingle_iff] at h ⊢
  rcases h with ⟨hne, hstray, ⟨source, hsource⟩, hd⟩ | ⟨d, hread, hd⟩
  · rw [stray_within false hne (.inl hback)]
    refine .inl ⟨fun hnil => hne (List.append_eq_nil_iff.mp hnil).1,
      hstray.within hback.setOff hne, ⟨source.shift (Text.bytes front), ?_⟩, ?_⟩
    · obtain ⟨-, rfl, -⟩ := Expr.utility.inj hsource
      dsimp only
      rw [hsource]
      rfl
    · rw [Cursor.rest_within]
      exact List.forall_mem_append.mpr ⟨hd, hb⟩
  · obtain ⟨_, t, hp, -⟩ := Head.read?_laid hread
    exact .inr (Head.read?_extend hfront hb hread (Text.eq_nil_of_trim htrim hp.rest_eq hd))

/-- What is a utility in the longer source is one without what was added. -/
theorem of_within (hfront : SetOff front) (hb : ∀ ch ∈ b, Text.isBlank ch = true)
    (hne : c.rest ≠ []) (h : ReadsSingle sep (c.within front b) head) :
    ∃ inner, ReadsSingle sep c inner := by
  have hback := apart_of_blanks hb
  rw [readsSingle_iff] at h
  rcases h with ⟨-, hstray, -, hd⟩ | ⟨d', hread', hd'⟩
  · rw [stray_within false hne (.inl hback), Cursor.rest_within] at hd
    exact ⟨_, readsSingle_iff.mpr (.inl ⟨hne, hstray.of_within hback.setOff, ⟨_, rfl⟩,
      (List.forall_mem_append.mp hd).1⟩)⟩
  · obtain ⟨⟨inner, d⟩, hread⟩ : ∃ x, Head.read? sep c = some x := by
      refine Option.ne_none_iff_exists'.mp fun hnone => ?_
      rw [Head.read?_within_none (.inr hne) hnone] at hread'
      cases hread'
    refine ⟨inner, readsSingle_iff.mpr (.inr ⟨d, hread, ?_⟩)⟩
    cases hclosed : inner.closed with
    | false =>
      rw [Head.rest_eq_nil_of_open hread hclosed]
      simp
    | true =>
      rw [Head.read?_within hfront hread (.inl hback.setOff) (.inl hclosed)] at hread'
      obtain ⟨-, rfl⟩ := Prod.mk.inj (Option.some.inj hread')
      exact (List.forall_mem_append.mp hd').1

end ReadsSingle

/-- A class list is a single unmarked utility if that is read where its blanks end. -/
theorem read_eq_utility_iff {t : Text} {head : Head} :
    (∃ source, (read sep t).exprs = [.utility source head false]) ↔
      ReadsSingle sep (Cursor.atStart t).skipBlanks head := by
  constructor
  · rintro ⟨source, hread⟩
    obtain ⟨f, hall⟩ := exists_readsAll_read sep t
    rw [hread] at hall
    cases hall with
    | @next _ _ d _ _ _ hfirst hrest =>
      cases hrest with
      | done hend =>
        have hnil : d.skipBlanks.rest = [] :=
          hend.resolve_right fun hgroup => Bool.false_ne_true hgroup.1
        obtain ⟨b, hp, hb, -⟩ := Cursor.passes_skipBlanks d
        have hd : d.rest = b := by rw [hp.rest_eq, hnil, List.append_nil]
        exact ⟨source, d, hfirst, hd.symm ▸ hb⟩
  · rintro ⟨source, d, hreads, hd⟩
    have hend : d.skipBlanks.rest = [] :=
      (Cursor.passes_skipBlanks_of_append (List.append_nil _).symm hd (by simp)).2
    have hall : ReadsAll sep false (.atStart t) _ _ := .next hreads (.done (.inl hend))
    exact ⟨source, by rw [hall.read_eq]⟩

section

variable (hb : ∀ ch ∈ b, Text.isBlank ch = true) (hb' : ∀ ch ∈ b', Text.isBlank ch = true)
  {t : Text} (htrim : Text.trim t = t) {head : Head}

/-- In a text without blanks at its ends nothing is skipped. -/
theorem skipBlanks_atStart_of_trim (htrim : Text.trim t = t) :
    (Cursor.atStart t).skipBlanks = .atStart t := by
  obtain ⟨w, hp, hw, -⟩ := Cursor.passes_skipBlanks (.atStart t)
  obtain rfl := Text.eq_nil_of_trim_front htrim hp.rest_eq hw
  exact hp.eq_of_nil

include hb htrim

/-- With blanks around it those in front are. -/
theorem skipBlanks_atStart_of_blanks (hne : t ≠ []) :
    (Cursor.atStart (b ++ t ++ b')).skipBlanks = (Cursor.atStart t).within b.reverse b' := by
  have hpass : (Cursor.atStart (b ++ t ++ b')).Passes b ((Cursor.atStart t).within b.reverse b') :=
    ⟨List.append_assoc .., by simp [Cursor.within, Cursor.atStart]⟩
  have hskip := skipBlanks_atStart_of_trim htrim
  rw [hpass.skipBlanks_eq hb, Cursor.skipBlanks_within (.inl (by rw [hskip]; exact hne)), hskip]

include hb'

/-- Blanks around a single utility become part of what is open in it. -/
theorem read_utility_blanks (h : ∃ source, (read sep t).exprs = [.utility source head false]) :
    ∃ source, (read sep (b ++ t ++ b')).exprs =
      [.utility source ((head.extend b').shift (Text.bytes b)) false] := by
  have hsingle := read_eq_utility_iff.mp h
  rw [skipBlanks_atStart_of_trim htrim] at hsingle
  have hfront : SetOff b.reverse :=
    (apart_of_blanks fun ch hch => hb ch (List.mem_reverse.mp hch)).setOff
  have hmoved := hsingle.within hfront hb' htrim
  rw [Text.bytes_reverse] at hmoved
  rw [read_eq_utility_iff, skipBlanks_atStart_of_blanks hb htrim hsingle.rest_ne_nil]
  exact hmoved

/-- Without the blanks around it a single utility is still one. -/
theorem exists_read_utility_of_blanks
    (h : ∃ source, (read sep (b ++ t ++ b')).exprs = [.utility source head false]) :
    ∃ inner source, (read sep t).exprs = [.utility source inner false] := by
  have hsingle := read_eq_utility_iff.mp h
  have hne : t ≠ [] := by
    rintro rfl
    have hblank : ∀ ch ∈ b ++ [] ++ b', Text.isBlank ch = true := by
      rw [List.append_nil]
      exact List.forall_mem_append.mpr ⟨hb, hb'⟩
    exact hsingle.rest_ne_nil
      (Cursor.passes_skipBlanks_of_append (List.append_nil _).symm hblank (by simp)).2
  have hfront : SetOff b.reverse :=
    (apart_of_blanks fun ch hch => hb ch (List.mem_reverse.mp hch)).setOff
  rw [skipBlanks_atStart_of_blanks hb htrim hne] at hsingle
  obtain ⟨inner, hinner⟩ := hsingle.of_within hfront hb' hne
  rw [← skipBlanks_atStart_of_trim htrim] at hinner
  exact ⟨inner, read_eq_utility_iff.mpr hinner⟩

end

end ClassList
end UtilityCss
