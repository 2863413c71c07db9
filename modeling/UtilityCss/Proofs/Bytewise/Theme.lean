import UtilityCss.Proofs.Bytewise.Head
import UtilityCss.Proofs.Bytewise.Value
import UtilityCss.Theme.Calls

/-!
# Theme calls by byte offsets

A call is looked for behind the offset at which the last search stopped, which is past the
characters of a name that only belongs to a longer one.  What is in front of the call, its
arguments and what follows it are cut out between the offset that was found, the bracket behind
the name and the offset at which the scanner for brackets stops.
-/

namespace UtilityCss
namespace Bytewise

/-- The text of the value at a path. -/
def resolve? (theme : Theme) (path : Text) : Option (Option Text) :=
  let path := Theme.unquote (Text.trim path)
  match theme.get? path with
  | some value => some (Value.entryText? value)
  | none =>
    match Text.cutAtLast? (· = '/') path with
    | none => some none
    | some (path, opacity) =>
      match (theme.get? (Text.trim path)).bind Value.entryText? with
      | none => some none
      | some value => do
        let opacity := Text.trim opacity
        let opacity := (theme.modifierOpacity? opacity).getD opacity
        return some ((← withOpacity? value opacity).getD value)

/-- What a call begins with. -/
def callLead : Text := "theme("

/-- The offset of the next call at an offset or behind it.  The first number bounds how many
names may be passed over. -/
def findCall? (text : Text) : Nat → Nat → Option (Option Nat)
  | 0, _ => some none
  | fuel + 1, start => do
    let ahead ← text.from? start
    match Text.offsetOf? callLead ahead with
    | none => return none
    | some offset =>
      let behind ← text.upTo? (start + offset)
      if Theme.joins behind.reverse then findCall? text fuel (start + offset + Text.bytes callLead)
      else return some (start + offset)

/-- The value of a call with these arguments, given how calls in its default are replaced. -/
def callValue? (theme : Theme) (render : Text → Option Text) (arguments : Text) : Option Text := do
  let parts ← atTop? (· = ',') arguments
  match ← resolve? theme (parts.headD []) with
  | some value => some value
  | none =>
    match Text.cutAt? (· = ',') arguments with
    | some (_, default) =>
      if 1 < parts.length then render (Theme.unquote (Text.trim default)) else some []
    | none => some []

/-- The text with every call replaced by its value, given how deep to go. -/
def renderWithin? (theme : Theme) : Nat → Text → Option Text
  | 0, t => some t
  | fuel + 1, t => do
    match ← findCall? t (t.length + 1) 0 with
    | none => return t
    | some start =>
      let front ← t.upTo? start
      let k := closing t (start + 5)
      let arguments ← inner? t (start + 5) k
      let value ← callValue? theme (renderWithin? theme fuel) arguments.text
      let rest ← t.from? k.1
      return front ++ value ++ (← renderWithin? theme fuel rest)

/-- The text with every call replaced by its value. -/
def renderCalls? (theme : Theme) (t : Text) : Option Text := renderWithin? theme (t.length + 1) t

/-! ## Paths -/

theorem resolve?_eq (theme : Theme) (path : Text) :
    resolve? theme path = some (theme.resolve? path) := by
  rw [resolve?, Theme.resolve?]
  generalize Theme.unquote (Text.trim path) = path
  cases theme.get? path with
  | some value => rfl
  | none =>
    cases Text.cutAtLast? (· = '/') path with
    | none => rfl
    | some parts =>
      dsimp only
      cases (theme.get? (Text.trim parts.1)).bind Value.entryText? with
      | none => rfl
      | some value =>
        dsimp only
        rw [withOpacity?_eq]
        rfl

/-! ## Finding calls -/

/-- The search along the characters, one step. -/
theorem findCall?_cons (before : Text) (c : Char) (t : Text) : Theme.findCall? before (c :: t) =
    if Text.startsWith (c :: t) callLead && !Theme.joins before then some (before, c :: t)
    else Theme.findCall? (c :: before) t := by
  rw [Theme.findCall?]
  rfl

/-- Where no call begins, none is found. -/
theorem findCall?_of_none : ∀ {t before : Text},
    (∀ x y, t = x ++ y → Text.startsWith y callLead = false) → Theme.findCall? before t = none
  | [], _, _ => rfl
  | c :: t, before, h => by
    rw [findCall?_cons, h [] (c :: t) rfl, Bool.false_and, if_neg Bool.false_ne_true]
    exact findCall?_of_none fun x y ht => h (c :: x) y (by rw [ht]; rfl)

/-- The search passes over what no call begins in. -/
theorem findCall?_append {call : Text} : ∀ {front before : Text},
    (∀ x y, front = x ++ y → y ≠ [] → Text.startsWith (y ++ call) callLead = false) →
    Theme.findCall? before (front ++ call) = Theme.findCall? (front.reverse ++ before) call
  | [], _, _ => rfl
  | c :: front, before, h => by
    have hstart : Text.startsWith (c :: (front ++ call)) callLead = false :=
      h [] (c :: front) rfl (List.cons_ne_nil c front)
    rw [List.cons_append, findCall?_cons, hstart, Bool.false_and, if_neg Bool.false_ne_true,
      findCall?_append fun x y hfront => h (c :: x) y (by rw [hfront]; rfl), List.reverse_cons,
      List.append_assoc]
    rfl

/-- Where a name belongs to a longer one, the search goes on behind it. -/
theorem findCall?_joined {before : Text} (h : Theme.joins before = true) (rest : Text) :
    Theme.findCall? before (callLead ++ rest) =
      Theme.findCall? (callLead.reverse ++ before) rest := by
  have hlead : callLead ++ rest = 't' :: (['h', 'e', 'm', 'e', '('] ++ rest) := rfl
  rw [hlead, findCall?_cons, h, Bool.not_true, Bool.and_false, if_neg Bool.false_ne_true,
    findCall?_append]
  · rfl
  -- no other call begins inside of the name
  · intro x y hxy hy
    obtain ⟨ch, u, rfl⟩ := List.exists_cons_of_ne_nil hy
    rw [Bool.eq_false_iff, ne_eq, Text.startsWith_iff]
    rintro ⟨v, hv⟩
    have hch : ch = 't' := (List.cons.inj hv).1
    have hmem : 't' ∈ ['h', 'e', 'm', 'e', '('] := by
      rw [hxy, hch]
      exact List.mem_append_right x List.mem_cons_self
    exact absurd hmem (by decide)

theorem findCall?_bytes {text : Text} : ∀ {fuel : Nat} {a ahead : Text}, text = a ++ ahead →
    ahead.length < fuel → findCall? text fuel (Text.bytes a) =
      some ((Theme.findCall? a.reverse ahead).map fun r => Text.bytes r.1)
  | 0, _, _, _, hfuel => absurd hfuel (Nat.not_lt_zero _)
  | fuel + 1, a, ahead, htext, hfuel => by
    subst htext
    rw [findCall?, Text.from?_append]
    simp only [Option.bind_eq_bind, Option.bind_some]
    rw [Text.offsetOf?]
    cases hcut : Text.cutAround? callLead ahead with
    | none =>
      rw [findCall?_of_none (Text.startsWith_eq_false_of_cutAround?_none hcut)]
      rfl
    | some parts =>
      obtain ⟨front, rest⟩ := parts
      have hahead : ahead = front ++ (callLead ++ rest) := by
        rw [Text.cutAround?_eq_append hcut, List.append_assoc]
      have hfront :
          Text.upTo? (a ++ ahead) (Text.bytes a + Text.bytes front) = some (a ++ front) := by
        rw [hahead, ← List.append_assoc, ← Text.bytes_append, Text.upTo?_append]
      have hbehind : (a ++ front).reverse = front.reverse ++ a.reverse := List.reverse_append
      have hfound : Theme.findCall? a.reverse ahead =
          Theme.findCall? (a ++ front).reverse (callLead ++ rest) := by
        rw [hahead, findCall?_append, hbehind]
        intro x y hxy hy
        have := Text.startsWith_eq_false_of_cutAround?_some hcut x y hxy hy
        rwa [List.append_assoc] at this
      dsimp only [Option.map_some]
      rw [hfront, hfound]
      simp only [Option.bind_some]
      cases hjoins : Theme.joins (a ++ front).reverse with
      | true =>
        have hpast : Text.bytes a + Text.bytes front + Text.bytes callLead =
            Text.bytes ((a ++ front) ++ callLead) := by
          rw [Text.bytes_append, Text.bytes_append]
        have hnext : a ++ ahead = ((a ++ front) ++ callLead) ++ rest := by simp [hahead]
        rw [if_pos rfl, hpast, findCall?_joined hjoins, findCall?_bytes hnext ?_,
          List.reverse_append]
        rw [hahead, List.length_append, List.length_append] at hfuel
        have hpos : 0 < callLead.length := by decide
        omega
      | false =>
        have hlead : callLead ++ rest = 't' :: (['h', 'e', 'm', 'e', '('] ++ rest) := rfl
        have hstart : Text.startsWith (callLead ++ rest) callLead = true :=
          Text.startsWith_iff.mpr ⟨rest, rfl⟩
        rw [if_neg Bool.false_ne_true, hlead, findCall?_cons, ← hlead, hstart, hjoins,
          Bool.not_false, Bool.and_self, if_pos rfl, Option.map_some, Text.bytes_reverse,
          Text.bytes_append]
        rfl

/-! ## Replacing calls -/

/-- What is found is a call, and what has been passed over stands in front of it. -/
theorem of_findCall? : ∀ {t before front call : Text},
    Theme.findCall? before t = some (front, call) →
      front.reverse ++ call = before.reverse ++ t ∧ ∃ u, call = callLead ++ u
  | [], _, _, _, h => absurd h (by simp [Theme.findCall?])
  | c :: t, before, front, call, h => by
    rw [findCall?_cons] at h
    split at h
    next hstart =>
      obtain ⟨rfl, rfl⟩ := Prod.mk.inj (Option.some.inj h)
      exact ⟨rfl, Text.startsWith_iff.mp ((Bool.and_eq_true ..).mp hstart).1⟩
    next =>
      obtain ⟨heq, hcall⟩ := of_findCall? h
      exact ⟨by rw [heq, List.reverse_cons, List.append_assoc]; rfl, hcall⟩

theorem renderWithin?_eq (theme : Theme) : ∀ (fuel : Nat) (t : Text),
    renderWithin? theme fuel t = some (theme.renderWithin fuel t)
  | 0, _ => rfl
  | fuel + 1, t => by
    have hfind : findCall? t (t.length + 1) 0 =
        some ((Theme.findCall? [] t).map fun r => Text.bytes r.1) :=
      findCall?_bytes (a := []) rfl (Nat.lt_succ_self t.length)
    rw [renderWithin?, hfind, Theme.renderWithin]
    simp only [Option.bind_eq_bind, Option.bind_some]
    cases hfound : Theme.findCall? [] t with
    | none => rfl
    | some r =>
      obtain ⟨before, call⟩ := r
      obtain ⟨ht, u, hcall⟩ := of_findCall? hfound
      have hfront : t.upTo? (Text.bytes before) = some before.reverse := by
        have hcut := Text.upTo?_append before.reverse call
        rwa [ht, Text.bytes_reverse] at hcut
      -- the bracket is right behind the name
      have hsplit : (⟨before, call⟩ : Cursor).rest = ['t', 'h', 'e', 'm', 'e'] ++ '(' :: u := hcall
      have hoffset : ((⟨before, call⟩ : Cursor).advance 5).offset = Text.bytes before + 5 :=
        (Cursor.passes_advance_of_append hsplit).offset
      have hparen : ((⟨before, call⟩ : Cursor).advance 5).source = t := by
        rw [Cursor.source_advance]
        exact ht
      have hrest : ((⟨before, call⟩ : Cursor).advance 5).rest = '(' :: u :=
        Cursor.rest_advance_of_append hsplit
      dsimp only [Option.map_some]
      generalize (⟨before, call⟩ : Cursor).advance 5 = paren at *
      have hafter : (paren.advance (Brackets.closing paren).length).source = t := by
        rw [Cursor.source_advance, hparen]
      rw [hfront, ← hoffset, inner?_offset hparen (by decide) hrest, closing_offset hparen,
        from?_offset hafter]
      simp only [Option.bind_some]
      rw [callValue?, atTop?_eq]
      simp only [Option.bind_eq_bind, Option.bind_some]
      rw [renderWithin?_eq theme fuel, resolve?_eq, Split.atChar, Option.bind_some]
      generalize (Brackets.inner paren (Brackets.closing paren)).text = arguments
      cases theme.resolve? ((Split.atTop (· = ',') arguments).headD []) with
      | some value => rfl
      | none =>
        cases Text.cutAt? (· = ',') arguments with
        | none => rfl
        | some parts =>
          dsimp only
          split
          · rw [renderWithin?_eq theme fuel]
            rfl
          · rfl

theorem renderCalls?_eq (theme : Theme) (t : Text) :
    renderCalls? theme t = some (theme.renderCalls t) :=
  renderWithin?_eq theme _ t

/-! ## Bracketed values -/

/-- The value that a bracketed text stands for. -/
def value? (theme : Theme) (raw : Text) : Option Text := do
  let rendered ← renderCalls? theme raw
  let spaced ← spaced? rendered.length rendered
  return Value.spaceMath spaced

theorem value?_eq (theme : Theme) (raw : Text) :
    value? theme raw = some (Bracketed.value theme raw) := by
  rw [value?, renderCalls?_eq]
  simp only [Option.bind_eq_bind, Option.bind_some]
  rw [spaced?_eq]
  rfl

/-- The selector that a bracketed text stands for. -/
def selector? (raw : Text) : Option (Option Text) := do
  let selector ← spaced? (Text.trim raw).length (Text.trim raw)
  return if selector.contains '&' || Text.startsWith selector ['@'] then some selector else none

theorem selector?_eq (raw : Text) : selector? raw = some (Bracketed.selector? raw) := by
  rw [selector?, spaced?_eq]
  rfl

end Bytewise
end UtilityCss
