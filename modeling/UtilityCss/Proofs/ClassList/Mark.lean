import UtilityCss.Proofs.ClassList.Juxtaposition
import UtilityCss.Proofs.ClassList.Outline
import UtilityCss.Proofs.ClassList.Placement

/-!
# Marks of importance

A mark of importance may stand in front of an expression or behind it.  What is read between
the two is read as it would be without a mark: a mark in front keeps a name, a bracket or a
group from being taken for a variant, which an expression that reaches to the end of its
source is not anyway, and a mark behind does not belong to a name and closes no bracket.
-/

namespace UtilityCss

namespace ClassList

/-! ## Expressions that take a mark -/

namespace Expr

/-- The expression with a mark of importance, as it is read off another piece of source. -/
def marked (source : Slice) : Expr → Expr
  | .group _ members _ closed => .group source members true closed
  | .span _ variant child => .span source variant child
  | .utility _ head _ => .utility source head true
  | .property _ value _ closed => .property source value true closed

/-- The piece of source does not show in the outline. -/
theorem outline_marked (source source' : Slice) (e : Expr) :
    (e.marked source).outline = (e.marked source').outline := by
  cases e with
  | span _ variant child => cases child <;> rfl
  | _ => rfl

theorem closed_shift {n : Nat} (e : Expr) : (e.shift n).closed = e.closed := by
  cases e with
  | span _ variant child => cases child <;> rfl
  | utility source head important => exact Head.closed_shift head
  | _ => rfl

theorem shift_marked (source : Slice) (n : Nat) (e : Expr) :
    (e.marked source).shift n = (e.shift n).marked (source.shift n) := by
  cases e with
  | span _ variant child => cases child <;> rfl
  | _ => rfl

/-- The expression is unmarked, and it is a utility, a property or a group.  A utility without a
value begins with a character of a name and not with the separator; otherwise it has been kept
although it is none. -/
def Markable (sep : Separator) : Expr → Prop
  | .group _ _ important _ => important = false
  | .span .. => False
  | .utility source (.plain ..) important =>
    important = false ∧ (∃ ch t, source.text = ch :: t ∧ isNameChar ch = true) ∧
      sep.startsIn source.text = false
  | .utility _ (.bracketed ..) important => important = false
  | .property _ _ important _ => important = false

end Expr

/-! ## What is read between the marks -/

variable {sep : Separator} {front back : Text} {b c d : Cursor} {e : Expr}

/-- Reads a closed utility, property or group without a mark on either side. -/
inductive ReadsBody (sep : Separator) (c d : Cursor) : Expr → Prop where
  | utility {source : Slice} {head : Head} :
    Head.read? sep c = some (head, d) → head.closed = true →
    ReadsBody sep c d (.utility source head false)
  | property {source : Slice} :
    c.isAt '[' = true → isVariant sep c = false → c.advance (Brackets.closing c).length = d →
    (Brackets.closing c).closed = true →
    ReadsBody sep c d (.property source (Brackets.inner c (Brackets.closing c)) false true)
  | group {source : Slice} {a : Cursor} {members : List Expr} :
    c.isAt '(' = true → isVariant sep c = false → ReadsAll sep true (c.advance 1) members a →
    a.isAt ')' = true → a.advance 1 = d →
    ReadsBody sep c d (.group source members false true)

/-- It is found in the longer source as it was, even if it reaches up to what is added. -/
theorem ReadsBody.within (hfront : SetOff front) (hback : SetOff back)
    (hclose : ∀ ch ∈ back, Brackets.isClosing ch = false) (h : ReadsBody sep c d e) :
    ReadsBody sep (c.within front back) (d.within front back) (e.shift (Text.bytes front)) := by
  cases h with
  | utility hread hclosed =>
    exact .utility (Head.read?_within hfront hread (Or.inl hback) (Or.inl hclosed))
      ((Head.closed_shift _).trans hclosed)
  | property hat hvariant hd hclosed =>
    have hk : Brackets.closing (c.within front back) = Brackets.closing c :=
      Brackets.closing_within hfront (Or.inl hclosed)
    have hle := Brackets.length_closing_le c
    have hinner : Brackets.inner (c.within front back) _ = _ :=
      Brackets.inner_within (Cursor.rest_ne_nil_of_isAt hat) hle
    rw [Expr.shift, ← hinner, ← hk]
    refine .property ((Cursor.isAt_within (Or.inl hback) (by decide)).trans hat) ?_ ?_ (hk ▸ hclosed)
    · rw [isVariant_within hfront hback (Or.inl hclosed)]
      exact hvariant
    · rw [hk, Cursor.advance_within hle, hd]
  | @group _ a members hat hvariant hmembers ha hd =>
    have hne := Cursor.rest_ne_nil_of_isAt ha
    have hspares : Spares back (c.advance 1).source (exprsListing 0 members).1 a :=
      Or.inr ⟨hne, hclose⟩
    have hmembers' := hmembers.within hfront hback hspares (Or.inl hne)
    rw [← Cursor.advance_within (Cursor.length_pos_of_isAt hat)] at hmembers'
    refine .group ((Cursor.isAt_within (Or.inl hback) (by decide)).trans hat) ?_ hmembers'
      ((Cursor.isAt_within (Or.inl hback) (by decide)).trans ha) ?_
    · rw [isVariant_within hfront hback (Or.inr hclose)]
      exact hvariant
    · rw [Cursor.advance_within (Cursor.length_pos_of_isAt ha), hd]

theorem takeBang_of_nil (h : d.rest = []) : takeBang d = (false, d) := by
  rw [takeBang, Cursor.isAt, h]
  rfl

/-- With a mark in front it is the expression that is marked. -/
theorem ReadsBody.reads_front (h : ReadsBody sep c d e) (hmarks : Marks true b c)
    (hd : d.rest = []) : Reads sep false b (e.marked (b.upTo d)) d := by
  have hbang := takeBang_of_nil hd
  cases h with
  | utility hread hclosed =>
    have hreads : Reads sep false b _ _ := .utility hmarks hread rfl
    rwa [hbang] at hreads
  | property hat hvariant hadvance hclosed =>
    have hreads : Reads sep false b _ _ := .property hmarks hat rfl hadvance hclosed
    rwa [hbang] at hreads
  | group hat hvariant hmembers ha hadvance =>
    have hreads : Reads sep false b _ _ := .group hmarks hat rfl hmembers ha hadvance
    rwa [hbang] at hreads

/-- With a mark behind it is the expression that is marked. -/
theorem ReadsBody.reads_behind (h : ReadsBody sep c d e) (hd : d.isAt '!' = true) :
    Reads sep false c (e.marked (c.upTo (d.advance 1))) (d.advance 1) := by
  have hbang : takeBang d = (true, d.advance 1) := if_pos hd
  cases h with
  | utility hread hclosed =>
    have hsep : sep.startsIn d.rest = false := by
      obtain ⟨r, hr⟩ := Cursor.isAt_iff.mp hd
      rw [hr]
      exact sep.startsIn_cons (by decide)
    have hreads : Reads sep false c _ _ :=
      .utility (marks_false c) hread (by rw [hsep]; rfl)
    rwa [hbang] at hreads
  | property hat hvariant hadvance hclosed =>
    have hreads : Reads sep false c _ _ :=
      .property (marks_false c) hat (by rw [hvariant]; rfl) hadvance hclosed
    rwa [hbang] at hreads
  | group hat hvariant hmembers ha hadvance =>
    have hreads : Reads sep false c _ _ :=
      .group (marks_false c) hat (by rw [hvariant]; rfl) hmembers ha hadvance
    rwa [hbang] at hreads

/-- An expression that takes a mark, and is closed, is read without one. -/
theorem Reads.body (h : Reads sep false c e d) (hmark : e.Markable sep)
    (hclosed : e.closed = true) (hsource : e.source.text = c.rest) : ReadsBody sep c d e := by
  have unmarked : ∀ {important : Bool} {start a : Cursor}, Marks important c start →
      ((takeBang a).1 || important) = false → important = false ∧ c = start ∧ (takeBang a).2 = a := by
    intro important start a hmarks hnone
    obtain ⟨hbang, rfl⟩ := Bool.or_eq_false_iff.mp hnone
    refine ⟨rfl, hmarks, ?_⟩
    unfold takeBang at hbang ⊢
    split at hbang
    · exact absurd hbang (by simp)
    · rename_i hat
      rw [if_neg hat]
  cases h with
  | stray hend hstray =>
    -- a name begins here, so there would be a head
    obtain ⟨-, ⟨ch, t, htext, hch⟩, hsep⟩ := hmark
    obtain ⟨hread, -, -⟩ := hstray false c (marks_false c)
    rw [Head.read?_eq_none_iff, ← hsource] at hread
    change nameLength sep (c.ahead _).text = 0 at hread
    rw [htext, nameLength, hch, ← htext, hsep] at hread
    exact absurd hread (by simp)
  | @utility _ important _ start a head hmarks hread hsep =>
    have hnone : ((takeBang a).1 || important) = false := by
      cases head with
      | plain => exact hmark.1
      | bracketed => exact hmark
    obtain ⟨rfl, rfl, hd⟩ := unmarked hmarks hnone
    rw [hnone, hd]
    exact .utility hread hclosed
  | property hmarks hat hvariant hd hk =>
    obtain ⟨rfl, rfl, ha⟩ := unmarked hmarks hmark
    rw [hmark, ha]
    exact .property hat (by simpa using hvariant) hd hk
  | group hmarks hat hvariant hmembers ha hd =>
    obtain ⟨rfl, rfl, he⟩ := unmarked hmarks hmark
    rw [hmark, he]
    exact .group hat (by simpa using hvariant) hmembers ha hd
  | openProperty => exact absurd hclosed Bool.false_ne_true
  | openGroup => exact absurd hclosed Bool.false_ne_true
  | bare => exact hmark.elim
  | span => exact hmark.elim

/-! ## Whole sources -/

/-- An expression is all of a class list, it is closed, and it takes a mark.  With a mark in
front or behind it is still all of the class list, and it is marked. -/
theorem read_mark {x : Text} (hread : (read sep x).exprs = [e]) (hsource : e.source = ⟨0, x⟩)
    (hclosed : e.closed = true) (hmark : e.Markable sep) :
    (read sep ('!' :: x)).exprs = [(e.shift 1).marked ⟨0, '!' :: x⟩] ∧
      (read sep (x ++ ['!'])).exprs = [e.marked ⟨0, x ++ ['!']⟩] := by
  obtain ⟨hskip, d, hreads, hd⟩ := exists_reads_of_read hread hsource
  have hbody := hreads.body hmark hclosed (by rw [hsource]; rfl)
  obtain ⟨t, hne, hp, -⟩ := hreads.laid
  have hxne : x ≠ [] := by
    intro hnil
    have hrest : x = t ++ d.rest := hp.rest_eq
    rw [hnil] at hrest
    exact hne (List.append_eq_nil_iff.mp hrest.symm).1
  have hoff : SetOff ['!'] := fun ch r h => by rw [← (List.cons.inj h).1]; decide
  constructor
  · have hplace : (Cursor.atStart ('!' :: x)).advance 1 = (Cursor.atStart x).within ['!'] [] := by
      simp [Cursor.advance, Cursor.within, Cursor.atStart]
    have hend : (d.within ['!'] []).rest = [] := by rw [Cursor.rest_within, hd]; rfl
    have hmarked := (hbody.within hoff apart_nil.setOff (by simp)).reads_front
      (b := .atStart ('!' :: x)) ⟨rfl, hplace⟩ hend
    rw [hmarked.upTo_eq hend] at hmarked
    exact hmarked.read_eq hend rfl
  · have hsource' : Cursor.atStart (x ++ ['!']) = (Cursor.atStart x).within [] ['!'] := rfl
    have hat : (d.within [] ['!']).isAt '!' = true := by rw [Cursor.isAt, Cursor.rest_within, hd]; rfl
    have hend : ((d.within [] ['!']).advance 1).rest = [] := by
      rw [Cursor.rest_advance, Cursor.rest_within, hd]
      rfl
    have hmarked := (hbody.within apart_nil.setOff hoff (by decide)).reads_behind hat
    have hzero : e.shift (Text.bytes []) = e := Expr.shift_zero e
    rw [← hsource', hzero] at hmarked
    rw [hmarked.upTo_eq hend] at hmarked
    refine hmarked.read_eq hend ?_
    rw [hsource', Cursor.skipBlanks_within (Or.inl (by rw [hskip]; exact hxne)), hskip]

end ClassList
end UtilityCss
