import UtilityCss.ClassList.Listing
import UtilityCss.Proofs.ClassList.VariantWithin

/-!
# Class lists side by side

Every rule of the grammar holds inside of a longer source as it holds in the source itself,
so a derivation can be carried over.  What is added on the left may end with a blank or a mark
of importance, and what is added on the right may begin with one.  On the right there are two
cases.  Where reading stops short of the end of the source, it is enough that no closing
bracket is added.  Where it reaches the end, a blank has to follow, nothing that is read may
be open, or it would go on behind the blank, and the parenthesis of every group has to close
for the scan that looks for a separator behind it.  The scan knows strings and comments, so it
can miss the parenthesis with which the group ends.

With that the expressions of two class lists with a blank in between are those of the first
followed by those of the second, which lie further on.
-/

namespace UtilityCss

namespace Cursor

variable {front back : Text} {c d : Cursor}

theorem Passes.within {t : Text} (h : c.Passes t d) (front back : Text) :
    (c.within front back).Passes t (d.within front back) where
  rest_eq := by rw [rest_within, h.rest_eq, List.append_assoc]; rfl
  before_eq := by
    show d.before ++ front = t.reverse ++ (c.before ++ front)
    rw [h.before_eq, List.append_assoc]

/-- Of blanks that have been passed over none is left to skip. -/
theorem Passes.skipBlanks_eq {b : Text} (h : c.Passes b d)
    (hb : ∀ ch ∈ b, Text.isBlank ch = true) : c.skipBlanks = d.skipBlanks := by
  obtain ⟨before, rest⟩ := c
  obtain ⟨before', rest'⟩ := d
  obtain rfl : rest = b ++ rest' := h.rest_eq
  obtain rfl : before' = b.reverse ++ before := h.before_eq
  simp [skipBlanks, advance, List.takeWhile_append_of_pos hb, List.take_length_add_append]

end Cursor

namespace ClassList

variable {sep : Separator} {front back : Text} {c d : Cursor}

/-! ## Expressions -/

theorem Marks.within {important : Bool} (h : Marks important c d) :
    Marks important (c.within front back) (d.within front back) := by
  cases important with
  | false =>
    obtain rfl : c = d := h
    exact marks_false _
  | true =>
    obtain ⟨hat, rfl⟩ : c.isAt '!' = true ∧ c.advance 1 = d := h
    have hne := Cursor.rest_ne_nil_of_isAt hat
    exact ⟨(Cursor.isAt_bang_within (Or.inr hne)).trans hat,
      Cursor.advance_within (Cursor.length_pos_of_isAt hat)⟩

/-- Behind a mark of importance in the longer source is a place of the source itself. -/
theorem Marks.exists_of_within (hne : c.rest ≠ []) {important : Bool} {d' : Cursor}
    (h : Marks important (c.within front back) d') :
    ∃ d, Marks important c d ∧ d' = d.within front back := by
  cases important with
  | false =>
    obtain rfl : c.within front back = d' := h
    exact ⟨c, marks_false c, rfl⟩
  | true =>
    obtain ⟨hat, rfl⟩ : (c.within front back).isAt '!' = true ∧
      (c.within front back).advance 1 = d' := h
    rw [Cursor.isAt_bang_within (Or.inr hne)] at hat
    exact ⟨c.advance 1, ⟨hat, rfl⟩, Cursor.advance_within (Cursor.length_pos_of_isAt hat)⟩

theorem takeBang_rest (h : (takeBang c).2.rest ≠ []) : c.rest ≠ [] := by
  intro hnil
  refine h ?_
  unfold takeBang
  split
  · rw [Cursor.rest_advance, hnil]
    rfl
  · exact hnil

theorem takeBang_within (h : Apart back ∨ (takeBang c).2.rest ≠ []) :
    takeBang (c.within front back) = ((takeBang c).1, (takeBang c).2.within front back) := by
  have hroom := h.imp_right takeBang_rest
  unfold takeBang
  rw [Cursor.isAt_bang_within hroom]
  split
  next hat => rw [Cursor.advance_within (Cursor.length_pos_of_isAt hat)]
  next => rfl

theorem not_atEnd_within (hback : SetOff back) {inGroup : Bool} (h : ¬ AtEnd inGroup c) :
    ¬ AtEnd inGroup (c.within front back) := by
  rintro (hnil | ⟨hgroup, hat⟩)
  · exact h (Or.inl (List.append_eq_nil_iff.mp hnil).1)
  · rw [Cursor.isAt_within (Or.inl hback) (by decide)] at hat
    exact h (Or.inr ⟨hgroup, hat⟩)

theorem AtStray.within (hback : SetOff back) (hne : c.rest ≠ []) (h : AtStray sep c) :
    AtStray sep (c.within front back) := by
  intro important d' hmarks'
  obtain ⟨d, hmarks, rfl⟩ := hmarks'.exists_of_within hne
  obtain ⟨hread, hparen, hsquare⟩ := h important d hmarks
  rw [Cursor.isAt_within (Or.inl hback) (by decide), Cursor.isAt_within (Or.inl hback) (by decide)]
  exact ⟨Head.read?_within_none (Or.inl hback) hread, hparen, hsquare⟩

theorem stray_within (inGroup : Bool) (hc : c.rest ≠ [])
    (h : Apart back ∨ (stray inGroup c).2.rest ≠ []) :
    stray inGroup (c.within front back) =
      ((stray inGroup c).1.shift (Text.bytes front), (stray inGroup c).2.within front back) := by
  have hpos := List.length_pos_of_ne_nil hc
  have hle := (List.takeWhile_sublist (fun ch => !Text.isBlank ch && !(inGroup && ch = ')'))
    (l := c.rest.drop 1)).length_le
  have hrun : ((c.rest.drop 1 ++ back).takeWhile fun ch =>
      !Text.isBlank ch && !(inGroup && ch = ')')) =
      (c.rest.drop 1).takeWhile fun ch => !Text.isBlank ch && !(inGroup && ch = ')') := by
    rcases h with hback | hne
    · exact takeWhile_within (fun ch hch => by rw [hch]; rfl) hback (c.rest.drop 1)
    · rw [List.takeWhile_append, if_neg]
      intro hall
      refine hne (List.eq_nil_of_length_eq_zero ?_)
      unfold stray
      rw [Cursor.rest_advance, List.length_drop, hall, List.length_drop]
      omega
  rw [List.length_drop] at hle
  unfold stray
  dsimp only
  rw [Cursor.rest_within, List.drop_append_of_le_length hpos, hrun,
    Cursor.ahead_within (by omega), Cursor.advance_within (by omega)]
  rfl

theorem isVariant_within (hfront : SetOff front) (hback : SetOff back)
    (h : (Brackets.closing c).closed = true ∨ ∀ ch ∈ back, Brackets.isClosing ch = false) :
    isVariant sep (c.within front back) = isVariant sep c := by
  unfold isVariant
  cases hclosed : (Brackets.closing c).closed with
  | true =>
    rw [Brackets.closing_within hfront (Or.inl hclosed), hclosed,
      Cursor.advance_within (Brackets.length_closing_le c), Cursor.rest_within,
      sep.startsIn_within hback]
  | false =>
    have hnone := h.resolve_left fun hc => Bool.false_ne_true (hclosed.symm.trans hc)
    rw [Brackets.closed_within hfront hnone hclosed, Bool.false_and, Bool.false_and]

/-! ### What has to be closed -/

/-- The place is that of the parenthesis which opens the group that the part is. -/
def Node.Opens (n : Node) (c : Cursor) : Prop :=
  (∃ important places, n.shape = .group important places) ∧ c.isAt '(' = true ∧
    ∃ important start, Marks important start c ∧ start.offset = n.source.start

/-- The part extends as far as it does whatever is added to the source: it is closed, and as a
group it closes for the scan for brackets too. -/
structure Node.Settled (source : Text) (n : Node) : Prop where
  closed : n.closed = true
  parens : ∀ c : Cursor, c.source = source → n.Opens c → (Brackets.closing c).closed = true

/-- What is closed is settled in a source in which every parenthesis closes. -/
theorem Node.settled_of_closed {source : Text} {n : Node} (hclosed : n.closed = true)
    (hparens : ∀ k ≤ source.length, ((Cursor.atStart source).advance k).isAt '(' = true →
      (Brackets.closing ((Cursor.atStart source).advance k)).closed = true) :
    n.Settled source where
  closed := hclosed
  parens := by
    rintro ⟨before, rest⟩ rfl ⟨-, hat, -⟩
    have hplace : (Cursor.atStart (Cursor.source ⟨before, rest⟩)).advance before.length =
        ⟨before, rest⟩ := by
      simp [Cursor.atStart, Cursor.source, Cursor.advance]
    have hle : before.length ≤ (Cursor.source ⟨before, rest⟩).length := by
      simp [Cursor.source]
    have hclosing := hparens before.length hle
    rw [hplace] at hclosing
    exact hclosing hat

/-- The part does not go on into what is added behind the source.  It is closed, if anything is
added; and if a closing bracket is, the part closes as a group for the scan for brackets too. -/
structure Node.Spared (back source : Text) (n : Node) : Prop where
  closed : n.closed = true ∨ back = []
  parens : (∀ ch ∈ back, Brackets.isClosing ch = false) ∨
    ∀ c : Cursor, c.source = source → n.Opens c → (Brackets.closing c).closed = true

/-- No part goes on into what is added behind the source. -/
def Keeps (back source : Text) (nodes : List Node) : Prop := ∀ n ∈ nodes, n.Spared back source

section

variable {source : Text} {nodes more : List Node}

theorem keeps_nil : Keeps [] source nodes := fun _ _ =>
  ⟨Or.inr rfl, Or.inl fun _ hch => absurd hch List.not_mem_nil⟩

theorem keeps_of_settled (h : ∀ n ∈ nodes, n.Settled source) : Keeps back source nodes :=
  fun n hn => ⟨Or.inl (h n hn).closed, Or.inr (h n hn).parens⟩

/-- What is closed does not go on into text without closing brackets. -/
theorem keeps_of_closed (hback : ∀ ch ∈ back, Brackets.isClosing ch = false)
    (h : ∀ n ∈ nodes, n.closed = true) : Keeps back source nodes :=
  fun n hn => ⟨Or.inl (h n hn), Or.inl hback⟩

namespace Keeps

theorem left (h : Keeps back source (nodes ++ more)) : Keeps back source nodes :=
  fun n hn => h n (List.mem_append_left _ hn)

theorem right (h : Keeps back source (nodes ++ more)) : Keeps back source more :=
  fun n hn => h n (List.mem_append_right _ hn)

end Keeps

end

/-- What is added behind the source leaves everything as it is that is read up to the place `d`:
it is set off by a blank, and what is read keeps; or the source goes on at `d`, and no closing
bracket is added. -/
def Spares (back source : Text) (nodes : List Node) (d : Cursor) : Prop :=
  Apart back ∧ Keeps back source nodes ∨ d.rest ≠ [] ∧ ∀ ch ∈ back, Brackets.isClosing ch = false

namespace Spares

variable {source : Text} {nodes more : List Node}

theorem room (h : Spares back source nodes d) : Apart back ∨ d.rest ≠ [] := h.imp And.left And.left

theorem left {d' : Cursor} (h : Spares back source (nodes ++ more) d)
    (hd : d.rest ≠ [] → d'.rest ≠ []) : Spares back source nodes d' :=
  h.imp (And.imp_right Keeps.left) (And.imp_left hd)

theorem right (h : Spares back source (nodes ++ more) d) : Spares back source more d :=
  h.imp_left (And.imp_right Keeps.right)

/-- A part is closed if it would be closed by leaving something of the source. -/
theorem closed {n : Node} (h : Spares back source nodes d) (hn : n ∈ nodes)
    (hd : d.rest ≠ [] → n.closed = true) : n.closed = true ∨ back = [] := by
  rcases h with ⟨-, hkeeps⟩ | ⟨hne, -⟩
  · exact (hkeeps n hn).closed
  · exact Or.inl (hd hne)

/-- The parenthesis of a group closes, or nothing that is added closes it. -/
theorem parens {n : Node} (h : Spares back source nodes d) (hn : n ∈ nodes)
    (hc : c.source = source) (hopens : n.Opens c) :
    (Brackets.closing c).closed = true ∨ ∀ ch ∈ back, Brackets.isClosing ch = false := by
  rcases h with ⟨-, hkeeps⟩ | ⟨-, hback⟩
  · exact (hkeeps n hn).parens.symm.imp_left fun hparens => hparens c hc hopens
  · exact Or.inr hback

end Spares

/-! ### Derivations -/

mutual

/-- An expression is found in the longer source as it was. -/
theorem Reads.within (hfront : SetOff front) (hback : SetOff back) {inGroup : Bool} {c d : Cursor}
    {e : Expr} {first : Nat} : Reads sep inGroup c e d →
      Spares back c.source (e.listing first) d →
      Reads sep inGroup (c.within front back) (e.shift (Text.bytes front)) (d.within front back)
  | .stray hend hstray, hspares => by
    have hne : c.rest ≠ [] := fun hnil => hend (Or.inl hnil)
    have hmoved : stray inGroup (c.within front back) = _ := stray_within inGroup hne hspares.room
    have hreads : Reads sep inGroup (c.within front back) _ _ :=
      .stray (not_atEnd_within hback hend) (hstray.within hback hne)
    rw [hmoved] at hreads
    exact hreads
  | .utility (d := a) hmarks hread hsep, hspares => by
    have hclosed := Spares.closed hspares List.mem_cons_self fun hne => by
      obtain ⟨-, -, -, -, hclosed, -⟩ :=
        Head.read?_closed hread (List.length_pos_of_ne_nil (takeBang_rest hne))
      exact hclosed
    have hbang : takeBang (a.within front back) = _ := takeBang_within hspares.room
    have hreads : Reads sep inGroup (c.within front back) _ _ :=
      .utility hmarks.within (Head.read?_within hfront hread (Or.inl hback) hclosed)
        (by rw [Cursor.rest_within, sep.startsIn_within hback]; exact hsep)
    rw [hbang, Cursor.upTo_within] at hreads
    exact hreads
  | @Reads.property _ _ _ _ start a hmarks hat hvariant hd hclosed, hspares => by
    have hk : Brackets.closing (start.within front back) = Brackets.closing start :=
      Brackets.closing_within hfront (Or.inl hclosed)
    have hle := Brackets.length_closing_le start
    have hbang : takeBang (a.within front back) = _ := takeBang_within hspares.room
    have hinner : Brackets.inner (start.within front back) _ = _ :=
      Brackets.inner_within (Cursor.rest_ne_nil_of_isAt hat) hle
    have hreads : Reads sep inGroup (c.within front back) _ _ :=
      .property hmarks.within ((Cursor.isAt_within (Or.inl hback) (by decide)).trans hat)
        (by rw [isVariant_within hfront hback (Or.inl hclosed)]; exact hvariant)
        (by rw [hk, Cursor.advance_within hle, hd]) (hk ▸ hclosed)
    rw [hk, hbang, hinner, Cursor.upTo_within] at hreads
    exact hreads
  | @Reads.openProperty _ _ important _ start _ hmarks hat hd hclosed, hspares => by
    have hnil := (Spares.closed hspares List.mem_cons_self fun hne => by
      rw [closed_of_stop (by decide) hat hd (List.length_pos_of_ne_nil hne)] at hclosed
      exact absurd hclosed (by decide)).resolve_left Bool.false_ne_true
    have hk : Brackets.closing (start.within front back) = Brackets.closing start :=
      Brackets.closing_within hfront (Or.inr hnil)
    have hle := Brackets.length_closing_le start
    have hinner : Brackets.inner (start.within front back) _ = _ :=
      Brackets.inner_within (Cursor.rest_ne_nil_of_isAt hat) hle
    have hreads : Reads sep inGroup (c.within front back) _ _ :=
      .openProperty hmarks.within ((Cursor.isAt_within (Or.inl hback) (by decide)).trans hat)
        (by rw [hk, Cursor.advance_within hle, hd]) (hk ▸ hclosed)
    rw [hk, hinner, Cursor.upTo_within] at hreads
    exact hreads
  | @Reads.group _ _ important _ start a b _ hmarks hat hvariant hmembers hclose hb, hspares => by
    have hbang : takeBang (b.within front back) = _ := takeBang_within hspares.room
    have hopen : start.Passes _ (start.advance 1) := Cursor.passes_advance start 1
    have hsource := hopen.source_eq.trans hmarks.passes.source_eq
    have hclosed := Spares.parens hspares List.mem_concat_self hmarks.passes.source_eq
      ⟨⟨_, _, rfl⟩, hat, important, c, hmarks, rfl⟩
    have hne := Cursor.rest_ne_nil_of_isAt hclose
    have hmembers' := ReadsAll.within hfront hback hmembers
      (hsource ▸ Spares.left hspares fun _ => hne) (Or.inl hne)
    rw [← Cursor.advance_within (Cursor.length_pos_of_isAt hat)] at hmembers'
    have hreads : Reads sep inGroup (c.within front back) _ _ :=
      .group hmarks.within ((Cursor.isAt_within (Or.inl hback) (by decide)).trans hat)
        (by rw [isVariant_within hfront hback hclosed]; exact hvariant) hmembers'
        ((Cursor.isAt_within (Or.inl hback) (by decide)).trans hclose)
        (Cursor.advance_within (Cursor.length_pos_of_isAt hclose))
    rw [hb, hbang, Cursor.upTo_within] at hreads
    exact hreads
  | @Reads.openGroup _ _ _ _ start a _ hmarks hat hvariant hmembers hclose, hspares => by
    have hnil := (Spares.closed hspares List.mem_concat_self fun hne => by
      -- a group that does not close reaches to the end of the source
      obtain ⟨-, -, hend, -⟩ := hmembers.laid
      rcases hend with hnil | ⟨-, hat⟩
      · exact absurd hnil hne
      · exact absurd (hclose.symm.trans hat) (by decide)).resolve_left Bool.false_ne_true
    have hopen : start.Passes _ (start.advance 1) := Cursor.passes_advance start 1
    have hsource := hopen.source_eq.trans hmarks.passes.source_eq
    have hmembers' := ReadsAll.within hfront hback hmembers (hsource ▸ Spares.left hspares id)
      (Or.inr hnil)
    rw [← Cursor.advance_within (Cursor.length_pos_of_isAt hat)] at hmembers'
    have hreads : Reads sep inGroup (c.within front back) _ _ :=
      .openGroup hmarks.within ((Cursor.isAt_within (Or.inl hback) (by decide)).trans hat)
        (by
          rw [isVariant_within hfront hback (Or.inr fun ch hch => by rw [hnil] at hch; simp at hch)]
          exact hvariant)
        hmembers' ((Cursor.isAt_within (Or.inl hback) (by decide)).trans hclose)
    rw [Cursor.upTo_within] at hreads
    exact hreads
  | .bare (d := a) hv hsep he hgap, hspares => by
    have hreads : Reads sep inGroup (c.within front back) _ _ :=
      .bare (hv.within_one hfront hsep back) ((sep.startsIn_within hback a.rest).trans hsep)
        (by rw [Cursor.advance_within (length_le_of_startsIn hsep), he])
        (by
          rw [Cursor.isAtGap_within hspares.room, Cursor.isAt_within (Or.inl hback) (by decide)]
          exact hgap)
    rw [Cursor.upTo_within] at hreads
    exact hreads
  | .span (d := a) (e := b) hv hsep he hgap hchild, hspares => by
    obtain ⟨t, -, hp, -⟩ := hv.laid (Nat.le_refl 1)
    have hpass : a.Passes _ b := he ▸ Cursor.passes_advance a sep.text.length
    have hsource := hpass.source_eq.trans hp.source_eq
    have hne : b.rest ≠ [] := by
      intro hnil
      rw [Cursor.isAtGap, hnil] at hgap
      exact absurd hgap (by simp)
    have hchild' := Reads.within hfront hback hchild
      (hsource ▸ Spares.right (Spares.left hspares id))
    have hreads : Reads sep inGroup (c.within front back) _ _ :=
      .span (hv.within_one hfront hsep back) ((sep.startsIn_within hback a.rest).trans hsep)
        (by rw [Cursor.advance_within (length_le_of_startsIn hsep), he])
        (by
          rw [Cursor.isAtGap_within (Or.inr hne), Cursor.isAt_within (Or.inl hback) (by decide)]
          exact hgap)
        hchild'
    rw [Cursor.upTo_within] at hreads
    exact hreads

/-- Expressions are found in the longer source as they were if they do not reach up to what was
added. -/
theorem ReadsAll.within (hfront : SetOff front) (hback : SetOff back) {inGroup : Bool}
    {c d : Cursor} {es : List Expr} {first : Nat} : ReadsAll sep inGroup c es d →
      Spares back c.source (exprsListing first es).1 d → d.rest ≠ [] ∨ back = [] →
      ReadsAll sep inGroup (c.within front back) (exprsShift (Text.bytes front) es)
        (d.within front back)
  | .done hend, _, hd => by
    have hskip : (c.within front back).skipBlanks = c.skipBlanks.within front back :=
      Cursor.skipBlanks_within hd
    rw [← hskip, exprsShift]
    refine .done ?_
    rw [hskip]
    rcases hend with hnil | ⟨hgroup, hat⟩
    · obtain rfl := hd.resolve_left fun h => h hnil
      exact Or.inl (by rw [Cursor.rest_within, hnil]; rfl)
    · exact Or.inr ⟨hgroup, (Cursor.isAt_within (Or.inl hback) (by decide)).trans hat⟩
  | .next hfirst hrest, hspares, hd => by
    obtain ⟨b, hp, -⟩ := Cursor.passes_skipBlanks c
    obtain ⟨t, hne, hp', -⟩ := hfirst.laid
    obtain ⟨u, hp'', -⟩ := hrest.laid
    have hskip : (c.within front back).skipBlanks = c.skipBlanks.within front back :=
      Cursor.skipBlanks_within (Or.inl (by rw [hp'.rest_eq]; simp [hne]))
    have hfirst' := Reads.within hfront hback hfirst (hp.source_eq ▸ Spares.left hspares fun hd => by
      rw [hp''.rest_eq]
      simp [hd])
    rw [← hskip] at hfirst'
    exact .next hfirst' (ReadsAll.within hfront hback hrest
      ((hp.trans hp').source_eq ▸ Spares.right hspares) hd)

end

/-! ## Two class lists -/

/-- Where reading begins does not matter up to blanks. -/
theorem ReadsAll.of_skipBlanks {inGroup : Bool} {c c' d : Cursor} {es : List Expr}
    (h : ReadsAll sep inGroup c es d) (hc : c.skipBlanks = c'.skipBlanks) :
    ReadsAll sep inGroup c' es d := by
  cases h with
  | done hend =>
    rw [hc] at hend ⊢
    exact .done hend
  | next hfirst hrest =>
    rw [hc] at hfirst
    exact .next hfirst hrest

/-- What is read up to the end of the source is read in front of what is added behind it. -/
theorem ReadsAll.append (hback : Apart back) {more : List Expr} {f : Cursor} {es : List Expr}
    {c d : Cursor} {first : Nat} (h : ReadsAll sep false c es d) (hd : d.rest = [])
    (hkeeps : Keeps back c.source (exprsListing first es).1)
    (hmore : ReadsAll sep false (d.within [] back) more f) :
    ReadsAll sep false (c.within [] back) (exprsShift 0 es ++ more) f := by
  induction es generalizing c first with
  | nil =>
    obtain ⟨b, hp, hb, -⟩ := Cursor.passes_skipBlanks c
    cases h with
    | done _ => exact hmore.of_skipBlanks ((hp.within [] back).skipBlanks_eq hb).symm
  | cons e es ih =>
    cases h with
    | next hfirst hrest =>
      obtain ⟨b, hp, -⟩ := Cursor.passes_skipBlanks c
      obtain ⟨t, hne, hp', -⟩ := hfirst.laid
      have hskip : (c.within [] back).skipBlanks = c.skipBlanks.within [] back :=
        Cursor.skipBlanks_within (Or.inl (by rw [hp'.rest_eq]; simp [hne]))
      have hfirst' := hfirst.within apart_nil.setOff hback.setOff
        (Or.inl ⟨hback, hp.source_eq ▸ Keeps.left hkeeps⟩)
      rw [← hskip] at hfirst'
      exact .next hfirst' (ih hrest ((hp.trans hp').source_eq ▸ Keeps.right hkeeps))

/-- A class list of two with a blank in between has the expressions of the first, if those are
settled, and behind them those of the second. -/
theorem read_append (sep : Separator) {a b : Text}
    (h : ∀ n ∈ (read sep a).listing, n.Settled a) :
    (read sep (a ++ ' ' :: b)).exprs =
      (read sep a).exprs ++ exprsShift (Text.bytes a + 1) (read sep b).exprs := by
  obtain ⟨d, hfirst⟩ := exists_readsAll_read sep a
  obtain ⟨d', hsecond⟩ := exists_readsAll_read sep b
  obtain ⟨t, hp, hend, -⟩ := hfirst.laid
  have hnil : d.rest = [] := hend.resolve_right fun hgroup => Bool.false_ne_true hgroup.1
  obtain rfl : a = t := by
    have hrest : a = t ++ d.rest := hp.rest_eq
    rwa [hnil, List.append_nil] at hrest
  have hblank : Text.isBlank ' ' = true := by decide
  -- the second one begins behind the blank
  have hadded : Spares [] b (exprsListing 0 (read sep b).exprs).1 d' :=
    Or.inl ⟨apart_nil, keeps_nil⟩
  have hbehind : ReadsAll sep false ((Cursor.atStart b).within (' ' :: a.reverse) []) _ _ :=
    hsecond.within (apart_blank hblank _).setOff apart_nil.setOff hadded (Or.inr rfl)
  have hpass : (d.within [] (' ' :: b)).Passes [' ']
      ((Cursor.atStart b).within (' ' :: a.reverse) []) := by
    have hbefore : d.before = a.reverse ++ [] := hp.before_eq
    exact ⟨by simp [hnil, Cursor.atStart], by simp [Cursor.within, Cursor.atStart, hbefore]⟩
  have hmore := hbehind.of_skipBlanks (hpass.skipBlanks_eq (by simpa using hblank)).symm
  have hsettled : Keeps (' ' :: b) a (exprsListing 0 (read sep a).exprs).1 :=
    keeps_of_settled fun n hn => h n (List.mem_append_left _ hn)
  have hboth := hfirst.append (apart_blank hblank b) hnil hsettled hmore
  have hsource : (Cursor.atStart a).within [] (' ' :: b) = .atStart (a ++ ' ' :: b) := rfl
  have hbytes : Text.bytes (' ' :: a.reverse) = Text.bytes a + 1 := by
    rw [Text.bytes_cons, Text.bytes_reverse, Nat.add_comm]
    rfl
  rw [hsource, exprsShift_zero, hbytes] at hboth
  rw [hboth.read_eq]

/-- Blanks around a class list only move it, if nothing in it is open. -/
theorem read_blanks (sep : Separator) {b t b' : Text} (hb : ∀ ch ∈ b, Text.isBlank ch = true)
    (hb' : ∀ ch ∈ b', Text.isBlank ch = true)
    (h : ∀ n ∈ (read sep t).listing, n.closed = true) :
    (read sep (b ++ t ++ b')).exprs = exprsShift (Text.bytes b) (read sep t).exprs := by
  obtain ⟨d, hall⟩ := exists_readsAll_read sep t
  obtain ⟨u, hp, hend, -⟩ := hall.laid
  have hnil : d.rest = [] := hend.resolve_right fun hgroup => Bool.false_ne_true hgroup.1
  -- behind the class list only blanks are left
  have hdone : ReadsAll sep false (d.within [] b') [] (d.within [] b').skipBlanks := by
    have hrest : (d.within [] b').rest = b' ++ [] := by
      rw [Cursor.rest_within, hnil, List.nil_append, List.append_nil]
    exact .done (Or.inl (Cursor.passes_skipBlanks_of_append hrest hb' (by simp)).2)
  have hclosing : ∀ ch ∈ b', Brackets.isClosing ch = false := fun ch hch => by
    cases hclose : Brackets.isClosing ch with
    | false => rfl
    | true =>
      have hblank := hb' ch hch
      rw [(Cursor.Encloses.of_isClosing hclose).1] at hblank
      exact absurd hblank (by decide)
  have hkeeps : Keeps b' t (exprsListing 0 (read sep t).exprs).1 :=
    keeps_of_closed hclosing fun n hn => h n (List.mem_append_left _ hn)
  have hbehind := hall.append (apart_of_blanks hb') hnil hkeeps hdone
  rw [exprsShift_zero, List.append_nil] at hbehind
  -- in front of it they are skipped
  have hfront : Apart b.reverse := apart_of_blanks fun ch hch => hb ch (List.mem_reverse.mp hch)
  have hmoved := hbehind.within hfront.setOff apart_nil.setOff
    (Or.inl ⟨apart_nil, @keeps_nil _ (exprsListing 0 _).1⟩) (Or.inr rfl)
  have hpass : (Cursor.atStart (b ++ t ++ b')).Passes b
      (((Cursor.atStart t).within [] b').within b.reverse []) :=
    ⟨by simp [Cursor.within, Cursor.atStart], by simp [Cursor.within, Cursor.atStart]⟩
  have hread := (hmoved.of_skipBlanks (hpass.skipBlanks_eq hb).symm).read_eq
  rw [hread, Text.bytes_reverse]

end ClassList
end UtilityCss
