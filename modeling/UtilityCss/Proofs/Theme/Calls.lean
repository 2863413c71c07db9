import Mathlib.Logic.Relation
import UtilityCss.Proofs.Brackets.Reading
import UtilityCss.Proofs.Bytewise.Theme
import UtilityCss.Proofs.ClassList.Chain
import UtilityCss.Proofs.Split

/-!
# The value of a theme call

What a call stands for depends on its arguments alone: the value at its path, or its default if the
path leads nowhere.  How deep the replacement may go does not matter as long as it is deeper than
the text is long, since the default of a call and what follows it are shorter than the text.

The default is what follows the first comma of the arguments, and the path ends at the first comma
at the top level.  So a default is used as it is written if there is no comma in the path; otherwise
it begins in the middle of the path.
-/

namespace UtilityCss
namespace Theme

/-- A call with these arguments. -/
def callOf (arguments : Text) : Text := Bytewise.callLead ++ (arguments ++ [')'])

/-- The scanner for brackets closes the call at its last character. -/
def ClosesAtEnd (arguments : Text) : Prop :=
  Brackets.closingAt (callOf arguments) 5 = (Text.bytes (callOf arguments), true)

instance (arguments : Text) : Decidable (ClosesAtEnd arguments) :=
  inferInstanceAs (Decidable (_ = _))

/-- What a call stands for, given how calls in its default are replaced. -/
def callValue (theme : Theme) (render : Text → Text) (arguments : Text) : Text :=
  match theme.resolve? ((Split.atChar ',' arguments).headD []) with
  | some value => value
  | none =>
    match Text.cutAt? (· = ',') arguments with
    | some (_, default) =>
      if 1 < (Split.atChar ',' arguments).length then render (unquote (Text.trim default)) else []
    | none => []

variable {theme : Theme}

/-! ## How deep to go -/

theorem length_unquote_le (t : Text) : (unquote t).length ≤ t.length := by
  have hquoted : ∀ q : Char, ∀ inner,
      (Text.dropLead? [q] t).bind (Text.dropTail? [q]) = some inner →
      inner.length ≤ t.length := by
    intro q inner h
    obtain ⟨u, hu, hinner⟩ := Option.bind_eq_some_iff.mp h
    rw [Text.dropLead?_eq_some_iff.mp hu, Text.dropTail?_eq_some_iff.mp hinner]
    simp only [List.length_append]
    omega
  unfold unquote
  cases hdouble : (Text.dropLead? ['\x22'] t).bind (Text.dropTail? ['\x22']) with
  | some inner => exact hquoted _ _ hdouble
  | none =>
    cases hsingle : (Text.dropLead? ['\x27'] t).bind (Text.dropTail? ['\x27']) with
    | some inner => exact hquoted _ _ hsingle
    | none => exact Nat.le_refl _

/-- Only texts shorter than the arguments are replaced for a default. -/
theorem callValue_congr {f g : Text → Text} {arguments : Text}
    (h : ∀ t : Text, t.length < arguments.length → f t = g t) :
    callValue theme f arguments = callValue theme g arguments := by
  unfold callValue
  cases theme.resolve? ((Split.atChar ',' arguments).headD []) with
  | some value => rfl
  | none =>
    cases hcut : Text.cutAt? (· = ',') arguments with
    | none => rfl
    | some cut =>
      obtain ⟨front, default⟩ := cut
      obtain ⟨c, -, -, rfl⟩ := Text.cutAt?_eq_some_iff.mp hcut
      have hshorter : (unquote (Text.trim default)).length < (front ++ c :: default).length := by
        have hunquote := length_unquote_le (Text.trim default)
        have htrim := (Text.trim_infix default).length_le
        rw [List.length_append, List.length_cons]
        omega
      dsimp only
      rw [h _ hshorter]

/-- One step of the replacement: what is in front of the first call, the value of the call, and
what follows it. -/
theorem renderWithin_succ (theme : Theme) (fuel : Nat) (t : Text) :
    renderWithin theme (fuel + 1) t =
      match findCall? [] t with
      | none => t
      | some (before, call) =>
        let paren := (⟨before, call⟩ : Cursor).advance 5
        let k := Brackets.closing paren
        before.reverse ++ callValue theme (renderWithin theme fuel) (Brackets.inner paren k).text ++
          renderWithin theme fuel (paren.advance k.length).rest := by
  rw [renderWithin]
  rfl

theorem renderWithin_congr {t : Text} {m n : Nat} (hm : t.length < m) (hn : t.length < n) :
    renderWithin theme m t = renderWithin theme n t := by
  induction hlength : t.length using Nat.strongRecOn generalizing t m n with
  | _ k ih =>
    obtain ⟨m, rfl⟩ := Nat.exists_eq_succ_of_ne_zero (Nat.ne_of_gt (Nat.zero_lt_of_lt hm))
    obtain ⟨n, rfl⟩ := Nat.exists_eq_succ_of_ne_zero (Nat.ne_of_gt (Nat.zero_lt_of_lt hn))
    rw [renderWithin_succ, renderWithin_succ]
    cases hfound : findCall? [] t with
    | none => rfl
    | some found =>
      obtain ⟨before, call⟩ := found
      obtain ⟨ht, u, rfl⟩ := Bytewise.of_findCall? hfound
      have hshorter : u.length + 6 ≤ t.length := by
        have hwhole := congrArg List.length ht
        simp only [List.length_append, List.length_reverse, List.length_nil] at hwhole
        have hlead : Bytewise.callLead.length = 6 := rfl
        omega
      have hrest : ((⟨before, Bytewise.callLead ++ u⟩ : Cursor).advance 5).rest = '(' :: u := rfl
      have hagree : ∀ v : Text, v.length ≤ u.length + 1 →
          renderWithin theme m v = renderWithin theme n v := fun v hv =>
        ih v.length (by omega) (by omega) (by omega) rfl
      have hvalue : (Brackets.inner ((⟨before, Bytewise.callLead ++ u⟩ : Cursor).advance 5)
          (Brackets.closing ((⟨before, Bytewise.callLead ++ u⟩ : Cursor).advance 5))).text.length ≤
          u.length := List.length_take_le' _ _
      dsimp only
      rw [callValue_congr fun v hv => hagree v (by omega), hagree]
      rw [Cursor.rest_advance, hrest, List.length_drop, List.length_cons]
      omega

/-- Going deeper than the text is long changes nothing. -/
theorem renderWithin_eq_renderCalls {t : Text} {fuel : Nat} (h : t.length < fuel) :
    renderWithin theme fuel t = theme.renderCalls t :=
  renderWithin_congr h (Nat.lt_succ_self _)

/-! ## A text that is a call -/

/-- The scan of a call that is closed at its end passes over all of it. -/
theorem reach_of_closesAtEnd {arguments : Text} (h : ClosesAtEnd arguments) :
    Brackets.reach .code 0 none ['e', 'm', 'e', 'h', 't'] ('(' :: (arguments ++ [')'])) =
      some (arguments.length + 2) := by
  have hscan := Brackets.closingAt_bytes ['t', 'h', 'e', 'm', 'e'] ('(' :: (arguments ++ [')']))
  have hcall : ['t', 'h', 'e', 'm', 'e'] ++ '(' :: (arguments ++ [')']) = callOf arguments := rfl
  have hname : ['t', 'h', 'e', 'm', 'e'].reverse = ['e', 'm', 'e', 'h', 't'] := rfl
  have hbytes : Text.bytes (callOf arguments) = 5 + Text.bytes ('(' :: (arguments ++ [')'])) := by
    rw [← hcall, Text.bytes_append]
    rfl
  rw [hcall, hname, show Text.bytes ['t', 'h', 'e', 'm', 'e'] = 5 from rfl, h, hbytes] at hscan
  cases hreach : Brackets.reach .code 0 none ['e', 'm', 'e', 'h', 't']
    ('(' :: (arguments ++ [')'])) with
  | none =>
    rw [hreach] at hscan
    exact Bool.noConfusion (Prod.mk.inj hscan).2
  | some n =>
    rw [hreach] at hscan
    obtain ⟨body, close, rest, htext, -, rfl⟩ := Brackets.exists_of_reach hreach
    have hsplit : '(' :: (arguments ++ [')']) = (body ++ [close]) ++ rest := by simp [htext]
    have htake : ('(' :: (arguments ++ [')'])).take (body.length + 1) = body ++ [close] := by
      rw [hsplit]
      exact List.take_left' (by simp)
    have hend := (Prod.mk.inj hscan).1
    rw [htake, hsplit, Text.bytes_append] at hend
    obtain rfl : rest = [] := Text.bytes_eq_zero_iff.mp (by omega)
    have hlength := congrArg List.length hsplit
    simp only [List.length_cons, List.length_append, List.length_nil] at hlength
    exact congrArg some (by omega)

/-- A call that is closed at its end stands for its value. -/
theorem renderCalls_callOf {arguments : Text} (h : ClosesAtEnd arguments) :
    theme.renderCalls (callOf arguments) = callValue theme theme.renderCalls arguments := by
  have hlead : callOf arguments = 't' :: (['h', 'e', 'm', 'e', '('] ++ (arguments ++ [')'])) := rfl
  have hfound : findCall? [] (callOf arguments) = some ([], callOf arguments) := by
    rw [hlead, Bytewise.findCall?_cons, ← hlead]
    exact if_pos (Bool.and_eq_true_iff.mpr
      ⟨Text.startsWith_iff.mpr ⟨arguments ++ [')'], rfl⟩, rfl⟩)
  have hparen : (⟨[], callOf arguments⟩ : Cursor).advance 5 =
      ⟨['e', 'm', 'e', 'h', 't'], '(' :: (arguments ++ [')'])⟩ := rfl
  have hclosing : Brackets.closing ⟨['e', 'm', 'e', 'h', 't'], '(' :: (arguments ++ [')'])⟩ =
      ⟨arguments.length + 2, true⟩ := by
    rw [Brackets.closing, reach_of_closesAtEnd h]
  have hinner : (Brackets.inner ⟨['e', 'm', 'e', 'h', 't'], '(' :: (arguments ++ [')'])⟩
      ⟨arguments.length + 2, true⟩).text = arguments := List.take_left
  rw [renderCalls, renderWithin_succ, hfound]
  dsimp only
  rw [hparen, hclosing, hinner]
  have hrest : ((⟨['e', 'm', 'e', 'h', 't'], '(' :: (arguments ++ [')'])⟩ : Cursor).advance
      (arguments.length + 2)).rest = [] := by
    rw [Cursor.rest_advance, List.drop_eq_nil_iff]
    simp
  have hlength : (callOf arguments).length = arguments.length + 7 := by
    rw [hlead]
    simp
  rw [hrest, callValue_congr fun t ht => renderWithin_eq_renderCalls (by omega), hlength]
  simp [renderWithin, findCall?]

/-! ## The path and the default -/

variable {path default : Text}

/-- The path ends at the first comma at the top level. -/
theorem atChar_path (hpath : Split.Balanced path) (hwhole : Split.Whole (· = ',') path)
    (default : Text) :
    Split.atChar ',' (path ++ ',' :: default) = path :: Split.atChar ',' default := by
  rw [Split.atChar, Split.atTop_append (by decide) (by decide) hpath.ends,
    Split.atTop_eq_singleton_iff.mpr hwhole]
  rfl

/-- A call without a value stands for what follows the first comma of its arguments. -/
theorem renderCalls_of_none (hpath : Split.Balanced path) (hwhole : Split.Whole (· = ',') path)
    (hnone : theme.resolve? path = none) (hclosed : ClosesAtEnd (path ++ ',' :: default))
    {front back : Text} (hcut : path ++ ',' :: default = front ++ ',' :: back)
    (hfront : ',' ∉ front) :
    theme.renderCalls (callOf (path ++ ',' :: default)) =
      theme.renderCalls (unquote (Text.trim back)) := by
  have hfirst : Text.cutAt? (· = ',') (path ++ ',' :: default) = some (front, back) :=
    Text.cutAt?_eq_some_iff.mpr
      ⟨',', decide_eq_true rfl, fun x hx => decide_eq_false fun h => hfront (h ▸ hx), hcut⟩
  obtain ⟨part, rest, hparts⟩ := List.exists_cons_of_ne_nil
    (Split.parts_ne_nil (· = ',') .top default)
  have hcount : 1 < (path :: Split.atChar ',' default).length := by
    rw [Split.atChar, Split.atTop, hparts]
    simp
  rw [renderCalls_callOf hclosed, callValue, atChar_path hpath hwhole, List.headD_cons, hnone,
    hfirst]
  exact if_pos hcount

/-- A call whose path leads nowhere, and what stands for it. -/
inductive FallsBack (theme : Theme) : Text → Text → Prop where
  | default {path default : Text} : Split.Balanced path → ',' ∉ path →
    theme.resolve? path = none → ClosesAtEnd (path ++ ',' :: default) →
      FallsBack theme (callOf (path ++ ',' :: default)) (unquote (Text.trim default))

theorem FallsBack.renderCalls_eq {call other : Text} (h : FallsBack theme call other) :
    theme.renderCalls call = theme.renderCalls other := by
  obtain ⟨hpath, hcomma, hnone, hclosed⟩ := h
  have hwhole : Split.Whole (· = ',') _ :=
    Split.whole_of_forall fun x hx => decide_eq_false fun h => hcomma (h ▸ hx)
  exact renderCalls_of_none hpath hwhole hnone hclosed rfl hcomma

/-- From default to default the value stays the same. -/
theorem renderCalls_of_fallsBack {call last : Text}
    (h : Relation.ReflTransGen (FallsBack theme) call last) :
    theme.renderCalls call = theme.renderCalls last := by
  induction h with
  | refl => rfl
  | tail _ hstep ih => exact ih.trans hstep.renderCalls_eq

/-- **A call falls back to its default.**  If the path leads nowhere and holds no comma, the call
stands for its default, without the blanks and quotes around it, and so for the default of that, if
it is such a call itself.  A comma that is nested in the path sets off the default instead. -/
theorem renderCalls_default (hpath : Split.Balanced path) (hwhole : Split.Whole (· = ',') path)
    (hnone : theme.resolve? path = none) (hclosed : ClosesAtEnd (path ++ ',' :: default)) :
    (',' ∉ path → theme.renderCalls (callOf (path ++ ',' :: default)) =
        theme.renderCalls (unquote (Text.trim default)) ∧
      ∀ last, Relation.ReflTransGen (FallsBack theme) (unquote (Text.trim default)) last →
        theme.renderCalls (callOf (path ++ ',' :: default)) = theme.renderCalls last) ∧
    ∀ front back, path = front ++ ',' :: back → ',' ∉ front →
      theme.renderCalls (callOf (path ++ ',' :: default)) =
        theme.renderCalls (unquote (Text.trim (back ++ ',' :: default))) := by
  constructor
  · intro hcomma
    have hdefault := renderCalls_of_none hpath hwhole hnone hclosed rfl hcomma
    exact ⟨hdefault, fun last hlast => hdefault.trans (renderCalls_of_fallsBack hlast)⟩
  · intro front back hsplit hfront
    refine renderCalls_of_none hpath hwhole hnone hclosed ?_ hfront
    rw [hsplit, List.append_assoc, List.cons_append]

/-- The default of a default, quoted and with commas in it. -/
theorem renderCalls_default_nested :
    let theme : Theme := ⟨.object []⟩
    let default := " 'theme(b, theme([c], red, (1, 2)))' ".toList
    Split.Balanced "a" ∧ Split.Whole (· = ',') "a" ∧ theme.resolve? "a" = none ∧
      ClosesAtEnd ("a".toList ++ ',' :: default) ∧ ',' ∉ "a".toList ∧
      theme.renderCalls (callOf ("a".toList ++ ',' :: default)) = "red, (1, 2)".toList := by
  intro theme default
  have hpath : Split.Balanced "a" := by decide
  have hcomma : ',' ∉ "a".toList := by decide
  have hwhole : Split.Whole (· = ',') "a" := Split.whole_of_forall (by decide)
  have hnone : theme.resolve? "a" = none := by decide
  have hclosed : ClosesAtEnd ("a".toList ++ ',' :: default) := by decide
  have houter : FallsBack theme (unquote (Text.trim default)) "theme([c], red, (1, 2))" :=
    @FallsBack.default theme "b" " theme([c], red, (1, 2))" (by decide) (by decide) (by decide)
      (by decide)
  have hinner : FallsBack theme "theme([c], red, (1, 2))" "red, (1, 2)" :=
    @FallsBack.default theme "[c]" " red, (1, 2)" (by decide) (by decide) (by decide) (by decide)
  have hchain := Relation.ReflTransGen.head houter (.single hinner)
  refine ⟨hpath, hwhole, hnone, hclosed, hcomma, ?_⟩
  rw [((renderCalls_default hpath hwhole hnone hclosed).1 hcomma).2 _ hchain]
  decide

/-- A comma that is nested in the path cuts it. -/
theorem renderCalls_default_cut :
    let theme : Theme := ⟨.object []⟩
    Split.Balanced "a[b,c]" ∧ Split.atChar ',' "a[b,c]" = ["a[b,c]".toList] ∧
      theme.resolve? "a[b,c]" = none ∧ ClosesAtEnd "a[b,c],red" ∧
      theme.renderCalls (callOf "a[b,c],red") = "c],red".toList ∧
      theme.renderCalls (unquote (Text.trim "red")) = "red".toList := by
  refine ⟨by decide, by decide, by decide, by decide, by decide, by decide⟩

end Theme
end UtilityCss
