import UtilityCss.Context
import UtilityCss.Proofs.Bracketed.Address
import UtilityCss.Proofs.Theme.Calls
import UtilityCss.Proofs.Value.Spacing

/-!
# Theme values in brackets

Calls are replaced before anything else is done to a bracketed text, so what the theme supplies is
converted like the rest of the text: its underscores become blanks unless they stand in the address
of a `url(`.  A value comes out as it is in the theme exactly if all its underscores do.

What is converted is taken away, and spacing out signs does not bring it back, so a value of which
an underscore was converted is another one.
-/

namespace UtilityCss
namespace Bracketed

open Theme (callOf ClosesAtEnd)

/-! ## What the conversions take away -/

/-- Each conversion takes away one of these characters. -/
def isMark (c : Char) : Bool := c = '_' || c = '\x5c'

theorem countP_cons_mark {c : Char} (hc : isMark c = true) (t : Text) :
    (c :: t).countP isMark = t.countP isMark + 1 := List.countP_cons_of_pos hc

theorem countP_cons_blank (t : Text) : (' ' :: t).countP isMark = t.countP isMark :=
  List.countP_cons_of_neg (by decide)

section Conversions

variable {inside : Text → Prop} {front t u : Text}

theorem Converts.countP_le (h : Converts inside front t u) :
    u.countP isMark ≤ t.countP isMark := by
  induction h with
  | nil => exact Nat.le_refl _
  | keep _ _ ih =>
    rw [countP_cons_mark rfl, countP_cons_mark rfl]
    exact Nat.succ_le_succ ih
  | blank _ _ ih =>
    rw [countP_cons_blank, countP_cons_mark rfl]
    exact Nat.le_succ_of_le ih
  | unescape _ _ ih =>
    rw [countP_cons_mark rfl, countP_cons_mark rfl, countP_cons_mark rfl]
    exact Nat.le_succ_of_le (Nat.succ_le_succ ih)
  | other _ _ _ ih =>
    rw [List.countP_cons, List.countP_cons]
    exact Nat.add_le_add_right ih _

/-- Where an underscore is converted something is taken away. -/
theorem Converts.countP_lt (h : Converts inside front t u) :
    ¬AtUnderscores inside front t → u.countP isMark < t.countP isMark := by
  induction h with
  | nil => exact fun hnot => absurd .nil hnot
  | keep hin _ ih =>
    intro hnot
    rw [countP_cons_mark rfl, countP_cons_mark rfl]
    exact Nat.succ_lt_succ (ih fun hall => hnot (atUnderscores_cons.mpr ⟨fun _ => hin, hall⟩))
  | blank _ hrest =>
    intro _
    rw [countP_cons_blank, countP_cons_mark rfl]
    exact Nat.lt_succ_of_le hrest.countP_le
  | unescape _ hrest =>
    intro _
    rw [countP_cons_mark rfl, countP_cons_mark rfl, countP_cons_mark rfl]
    exact Nat.succ_lt_succ (Nat.lt_succ_of_le hrest.countP_le)
  | other hc _ _ ih =>
    intro hnot
    rw [List.countP_cons, List.countP_cons]
    exact Nat.add_lt_add_right
      (ih fun hall => hnot (atUnderscores_cons.mpr ⟨fun h => absurd h hc, hall⟩)) _

end Conversions

/-- Spacing out signs takes no such character away and adds none. -/
theorem countP_spaceMath (t : Text) : (Value.spaceMath t).countP isMark = t.countP isMark := by
  have hspaced : ∀ (s : Value.Spacing) (t : Text),
      (s.spaced t).countP isMark = t.countP isMark := by
    intro s t
    induction t generalizing s with
    | nil => rfl
    | cons c t ih =>
      have hpiece : (s.piece c t.head?).countP isMark = [c].countP isMark := by
        unfold Value.Spacing.piece
        split
        · simp [List.countP_cons, show isMark ' ' = false from rfl]
        · rfl
      rw [Value.Spacing.spaced, List.countP_append, ih, hpiece, ← List.countP_append,
        List.singleton_append]
  rw [Value.spaceMath_eq]
  split
  · exact hspaced _ t
  · rfl

/-- What comes out of the conversions is the text itself exactly if all its underscores stand in
addresses. -/
theorem spaceMath_spaced_eq_self_iff {t : Text} (h : Value.CallsNoMath t) :
    Value.spaceMath (spaced t) = t ↔ ∀ a b, t = a ++ '_' :: b → InAddress a := by
  have hspaced := converts_spaced t
  by_cases hall : AtUnderscores InAddress [] t
  · refine iff_of_true ?_ hall
    rw [hspaced.eq_self hall, Value.spaceMath_eq_self h]
  · refine iff_of_false (fun hself => ?_) hall
    have hcount := countP_spaceMath (spaced t)
    rw [hself] at hcount
    exact Nat.lt_irrefl _ (hcount ▸ hspaced.countP_lt hall)

/-! ## A theme value in brackets -/

/-- A call whose path is balanced is closed at its end, unless something in the path begins a
comment. -/
theorem closesAtEnd_of_balanced {path : Text} (hpath : Split.Balanced path)
    (hcomment : Brackets.NoComment path) : ClosesAtEnd path := by
  have hscan := Brackets.closingAt_bytes ['t', 'h', 'e', 'm', 'e'] ('(' :: (path ++ [')']))
  have hall : ('(' :: (path ++ [')'])).take (path.length + 2) = '(' :: (path ++ [')']) :=
    List.take_of_length_le (by simp)
  rw [hpath.reach hcomment] at hscan
  dsimp only at hscan
  rw [hall, ← Text.bytes_append] at hscan
  exact hscan

/-- **A bracketed call is converted like the rest of the text.**  The call stands for the value at
its path, which rendering the path gives as it is.  In a bracket the underscores of the value are
converted, so without arithmetic the value comes out as it is exactly if all of them stand in
addresses. -/
theorem value_callOf {theme : Theme} {path v : Text} (hpath : Split.Balanced path)
    (hwhole : Split.Whole (· = ',') path) (hvalue : theme.resolve? path = some v) :
    (Brackets.NoComment path → ClosesAtEnd path) ∧
    (∀ ctx : Context, ctx.env.theme = theme → ctx.renderPath path = v) ∧
    (ClosesAtEnd path →
      value theme (callOf path) = Value.spaceMath (spaced v) ∧
      (Value.CallsNoMath v →
        (value theme (callOf path) = v ↔ ∀ a b, v = a ++ '_' :: b → InAddress a))) := by
  refine ⟨closesAtEnd_of_balanced hpath, fun ctx hctx => ?_, fun hclosed => ?_⟩
  · rw [Context.renderPath, hctx, hvalue]
    rfl
  · have hrender : theme.renderCalls (callOf path) = v := by
      have hparts : Split.atChar ',' path = [path] := Split.atTop_eq_singleton_iff.mpr hwhole
      rw [Theme.renderCalls_callOf hclosed, Theme.callValue, hparts, List.headD_cons, hvalue]
    rw [value, hrender]
    exact ⟨rfl, spaceMath_spaced_eq_self_iff⟩

/-- An address in the theme whose name has underscores and parentheses. -/
theorem value_callOf_address :
    let theme : Theme := ⟨.object [("backgroundImage", .object [("a,b",
      .text "url(/my_(a_b)_c.png) no-repeat")])]⟩
    let path := "backgroundImage['a,b']".toList
    let v := "url(/my_(a_b)_c.png) no-repeat".toList
    Split.Balanced path ∧ Split.Whole (· = ',') path ∧ theme.resolve? path = some v ∧
      ClosesAtEnd path ∧ Value.CallsNoMath v ∧ value theme (callOf path) = v ∧
        ∀ a b, v = a ++ '_' :: b → InAddress a := by
  intro theme path v
  have hpath : Split.Balanced path := by decide
  have hwhole : Split.Whole (· = ',') path := Split.atTop_eq_singleton_iff.mp (by decide)
  have hvalue : theme.resolve? path = some v := by decide
  have hmath : Value.CallsNoMath v := by decide
  obtain ⟨hcloses, -, hconverted⟩ := value_callOf hpath hwhole hvalue
  have hclosed : ClosesAtEnd path := hcloses (by decide +kernel)
  have hself : value theme (callOf path) = v := by decide
  exact ⟨hpath, hwhole, hvalue, hclosed, hmath, hself, ((hconverted hclosed).2 hmath).mp hself⟩

/-- An underscore of the theme becomes a blank.  Where the path seems to begin a comment, or ends in
a backslash, the call is not closed. -/
theorem value_callOf_converted :
    let fonts : Theme := ⟨.object [("fontFamily", .object [("x", .text "My_Font")])]⟩
    let odd : Theme := ⟨.object [("k", .object [("a//b", .text "red")]), ("k\x5c", .text "red")]⟩
    (fonts.resolve? "fontFamily.x" = some "My_Font".toList ∧
      value fonts (callOf "fontFamily.x") = "My Font".toList) ∧
    (Split.Balanced "k[a//b]" ∧ odd.resolve? "k[a//b]" = some "red".toList ∧
      value odd (callOf "k[a//b]") = []) ∧
    odd.resolve? ['k', '\x5c'] = some "red".toList ∧ value odd (callOf ['k', '\x5c']) = [] := by
  refine ⟨⟨by decide, by decide⟩, ⟨by decide, by decide, by decide⟩, by decide, by decide⟩

end Bracketed
end UtilityCss
