import UtilityCss.Proofs.ClassList.Bare

/-!
# Scanning printed class lists

Whether a parenthesis opens a group of variants is decided by what stands behind the
parenthesis that closes it, so the scanner for brackets runs over everything in between.
`Skips` says that it gets over a printed text and is then in the state it was in.

Two things could go wrong.  Outside of brackets a comment would swallow the rest, which
is why the text with its brackets emptied must hold none.  And a parenthesis right behind
the letters `url` opens an address, in which quotes and comments mean nothing; in a printed
text only a separator can put these letters there.
-/

namespace UtilityCss
namespace ClassList

open Brackets Bare

/-- The scanner gets over the text `t`; `skeleton` is the text with its brackets emptied. -/
structure Skips (sep : Separator) (t skeleton : Text) : Prop where
  scan : ∀ (depth : Nat) (url : Option Nat) (before r : Text), 1 ≤ depth →
    (∀ m ∈ url, m ≤ depth) → (url.isSome = true → endsUrl sep = true) →
    (afterUrl before = true → endsUrl sep = true) → NoComment (skeleton ++ r.take 1) →
    reach .code depth url before (t ++ r) =
      (reach .code depth url (t.reverse ++ before) r).map (· + t.length)
  head : t.head? = skeleton.head?

/-- Right behind the text a parenthesis opens an address only if it would without the
text, or if the separator spells it. -/
def Settles (sep : Separator) (t : Text) : Prop :=
  ∀ before, (afterUrl before = true → endsUrl sep = true) →
    afterUrl (t.reverse ++ before) = true → endsUrl sep = true

theorem toLower_of_afterUrl {t before : Text} {ch : Char}
    (h : afterUrl ((t ++ [ch]).reverse ++ before) = true) : ch.toLower = 'l' := by
  rw [List.reverse_append, List.reverse_singleton, List.singleton_append, List.cons_append] at h
  generalize t.reverse ++ before = u at h
  match u, h with
  | _ :: _ :: _, h =>
    simp only [afterUrl, Bool.and_eq_true, decide_eq_true_eq] at h
    exact h.2

namespace Settles

variable {sep : Separator}

theorem nil : Settles sep [] := fun _ h => h

theorem of_last {ch : Char} (hch : ch.toLower ≠ 'l') (t : Text) : Settles sep (t ++ [ch]) :=
  fun _ _ h => absurd (toLower_of_afterUrl h) hch

theorem of_separator (sep : Separator) (t : Text) : Settles sep (t ++ sep.text) := by
  intro before _ h
  obtain ⟨u, ch, hsep⟩ : ∃ u ch, sep.text = u ++ [ch] :=
    ⟨_, _, (List.dropLast_append_getLast sep.text_ne_nil).symm⟩
  rw [hsep, ← List.append_assoc] at h
  rw [endsUrl, hsep, List.getLast?_concat, Option.any_some]
  exact decide_eq_true (toLower_of_afterUrl h)

theorem bang (important : Bool) : Settles sep (bang important) := by
  cases important with
  | false => exact nil
  | true => exact of_last (by decide) []

end Settles

namespace Skips

variable {sep : Separator} {t s u v : Text}

/-- Text without brackets, quotes and backslashes. -/
theorem plain (ht : ∀ ch ∈ t, isPlain ch = true) : Skips sep t t where
  scan := fun _ _ before r _ _ _ _ hcomment => reach_plain t before r ht hcomment
  head := rfl

/-- A pair of brackets. -/
theorem boxed (ht : Content sep t) : Skips sep ('[' :: (t ++ [']'])) ['[', ']'] where
  scan := by
    intro depth url before r hdepth hurl hends _ _
    have h := reach_box hdepth hurl ht.1 (fun hsome => ht.2 (hends hsome)) before r
    have htext : '[' :: (t ++ [']']) ++ r = '[' :: (t ++ ']' :: r) := by simp
    have hbehind : ('[' :: (t ++ [']'])).reverse ++ before =
        ']' :: (t.reverse ++ '[' :: before) := by simp
    have hlength : ('[' :: (t ++ [']'])).length = t.length + 2 := by simp
    rw [htext, hbehind, hlength, h]
  head := rfl

/-- Behind a text the scanner goes on as it does behind any other, if `hsecond` says so. -/
theorem append_of (h : Skips sep t s) (hhead : u.head? = v.head?)
    (hsecond : ∀ (depth : Nat) (url : Option Nat) (before r : Text), 1 ≤ depth →
      (∀ m ∈ url, m ≤ depth) → (url.isSome = true → endsUrl sep = true) →
      (afterUrl before = true → endsUrl sep = true) → NoComment (v ++ r.take 1) →
      reach .code depth url (t.reverse ++ before) (u ++ r) =
        (reach .code depth url (u.reverse ++ (t.reverse ++ before)) r).map (· + u.length)) :
    Skips sep (t ++ u) (s ++ v) where
  scan := by
    intro depth url before r hdepth hurl hends hbefore hcomment
    have hnext : (u ++ r).take 1 <+: v ++ r.take 1 := by
      cases v with
      | nil =>
        rw [List.head?_nil, List.head?_eq_none_iff] at hhead
        rw [hhead]
        exact List.prefix_refl _
      | cons y v =>
        obtain ⟨u', rfl⟩ := List.head?_eq_some_iff.mp hhead
        exact ⟨v ++ r.take 1, rfl⟩
    have hfirst : NoComment (s ++ (u ++ r).take 1) := by
      refine hcomment.of_infix ?_
      rw [List.append_assoc]
      exact List.IsPrefix.isInfix ((List.prefix_append_right_inj s).mpr hnext)
    have hrest : NoComment (v ++ r.take 1) := by
      refine hcomment.of_infix ?_
      rw [List.append_assoc]
      exact (List.suffix_append s _).isInfix
    rw [List.append_assoc, h.scan depth url before (u ++ r) hdepth hurl hends hbefore hfirst,
      hsecond depth url before r hdepth hurl hends hbefore hrest]
    simp [Function.comp_def, Nat.add_comm, Nat.add_left_comm, List.append_assoc]
  head := by rw [List.head?_append, List.head?_append, h.head, hhead]

/-- One text behind the other. -/
theorem append (h : Skips sep t s) (hsettles : Settles sep t) (h' : Skips sep u v) :
    Skips sep (t ++ u) (s ++ v) :=
  h.append_of h'.head fun depth url before r hdepth hurl hends hbefore hcomment =>
    h'.scan depth url _ r hdepth hurl hends (hsettles before hbefore) hcomment

/-- Ordinary text does not care what is in front of it. -/
theorem append_plain (h : Skips sep t s) (hu : ∀ ch ∈ u, isPlain ch = true) :
    Skips sep (t ++ u) (s ++ u) :=
  h.append_of rfl fun _ _ _ r _ _ _ _ hcomment => reach_plain u _ r hu hcomment

/-- A group, whose parentheses take the scanner down and up again. -/
theorem parens (h : Skips sep t s) :
    Skips sep ('(' :: (t ++ [')'])) ('(' :: (s ++ [')'])) where
  scan := by
    intro depth url before r hdepth hurl hends hbefore hcomment
    have hinner : NoComment (s ++ (')' :: r).take 1) := by
      refine hcomment.of_infix ⟨['('], r.take 1, ?_⟩
      simp
    -- the argument of an address that starts here ends here
    generalize hurl' : (if url.isNone && afterUrl before then some (depth + 1) else url) = url'
    have hmarked : ∀ m ∈ url', m ≤ depth + 1 := by
      intro m hm
      rw [← hurl'] at hm
      split at hm
      · obtain rfl : depth + 1 = m := by simpa using hm
        omega
      · have := hurl m hm
        omega
    have hends' : url'.isSome = true → endsUrl sep = true := by
      intro hsome
      rw [← hurl'] at hsome
      split at hsome
      next hopen => exact hbefore (Bool.and_eq_true_iff.mp hopen).2
      next => exact hends hsome
    have hclose : (if url' = some (depth + 1) then none else url') = url := by
      rw [← hurl']
      cases url with
      | none => cases afterUrl before <;> simp
      | some m =>
        have hm := hurl m rfl
        rw [if_neg (by simp; omega)]
        simp
    have htext : '(' :: (t ++ [')']) ++ r = '(' :: (t ++ ')' :: r) := by simp
    have hbehind : ('(' :: (t ++ [')'])).reverse ++ before =
        ')' :: (t.reverse ++ '(' :: before) := by simp
    have hlength : ('(' :: (t ++ [')'])).length = t.length + 2 := by simp
    rw [htext, hbehind, hlength, reach_open, hurl',
      h.scan (depth + 1) url' ('(' :: before) (')' :: r) (by omega) hmarked hends'
        (fun h => absurd (toLower_of_afterUrl (t := []) h) (by decide)) hinner,
      reach_close (by omega), hclose, Nat.add_sub_cancel]
    simp [Function.comp_def, Nat.add_comm, Nat.add_left_comm]
  head := rfl

end Skips

/-! ## Printed class lists -/

section

variable {sep : Separator}

theorem skips_bang (important : Bool) : Skips sep (bang important) (bang important) :=
  Skips.plain (by cases important <;> decide)

/-- A run of ordinary characters and one more. -/
theorem skips_word {t : Text} {ch : Char} (ht : Word t) (hch : isPlain ch = true) :
    Skips sep (t ++ [ch]) (t ++ [ch]) := by
  refine Skips.plain fun x hx => ?_
  rcases List.mem_append.mp hx with hx | hx
  · exact (ht.2 x hx).2
  · rw [List.mem_singleton.mp hx]
    exact hch

theorem Bare.Modifier.Fits.skips {m : Bare.Modifier} (h : m.Fits sep) :
    Skips sep (m.print id) (m.print hollow) := by
  cases m with
  | plain t =>
    refine Skips.plain fun x hx => ?_
    rcases List.mem_cons.mp hx with rfl | hx
    · decide
    · exact (h.1.2 x hx).2
  | boxed content =>
    have hslash : Skips sep ['/'] ['/'] := Skips.plain (by decide)
    exact hslash.append (Settles.of_last (by decide) []) (Skips.boxed h)

theorem Bare.Head.Fits.skips {head : Bare.Head} (h : head.Fits sep) :
    Skips sep (head.print id) (head.print hollow) := by
  cases head with
  | plain name modifier => exact Skips.plain fun x hx => (h.1.2 x hx).2
  | modified name content =>
    have happend : ∀ box, (Bare.Head.modified name content).print box =
        (name ++ ['/']) ++ boxed box content := fun box => List.append_cons ..
    rw [happend, happend]
    exact (skips_word h.1 (by decide)).append (Settles.of_last (by decide) name) (Skips.boxed h.2)
  | bracketed lead value modifier =>
    have hlead : Skips sep (lead ++ ['-']) (lead ++ ['-']) := skips_word h.1 (by decide)
    have hsettles : Settles sep (lead ++ ['-']) := Settles.of_last (by decide) lead
    cases modifier with
    | none =>
      have happend : ∀ box, (Bare.Head.bracketed lead value none).print box =
          (lead ++ ['-']) ++ boxed box value := fun box => List.append_cons ..
      rw [happend, happend]
      exact hlead.append hsettles (Skips.boxed h.2.1)
    | some m =>
      have happend : ∀ box, (Bare.Head.bracketed lead value (some m)).print box =
          (lead ++ ['-']) ++ (boxed box value ++ m.print box) := fun box => List.append_cons ..
      have hvalue : Skips sep (boxed id value ++ m.print id)
          (boxed hollow value ++ m.print hollow) :=
        (Skips.boxed h.2.1).append (Settles.of_last (by decide) ('[' :: value))
          (h.2.2 m rfl).skips
      rw [happend, happend]
      exact hlead.append hsettles hvalue

mutual

theorem Bare.Variant.skips (hsep : ∀ ch ∈ sep.text, isPlain ch = true) :
    ∀ {v : Bare.Variant}, v.Fits sep → Skips sep (v.print id sep) (v.print hollow sep)
  | .named _, h => h.1.skips
  | .selector _, h => Skips.boxed h
  | .group _, h => (membersSkip hsep h).parens

/-- The links of a chain, each with its separator. -/
theorem chainSkips (hsep : ∀ ch ∈ sep.text, isPlain ch = true) :
    ∀ {links : List Bare.Variant}, ChainFits sep links →
      Skips sep (chainPrint id sep links) (chainPrint hollow sep links)
  | [], _ => Skips.plain (by simp [chainPrint])
  | v :: rest, h => by
    have hlink : Skips sep (v.print id sep ++ sep.text) (v.print hollow sep ++ sep.text) :=
      (Bare.Variant.skips hsep h.1).append_plain hsep
    exact hlink.append (Settles.of_separator sep _) (chainSkips hsep h.2)

theorem membersSkip (hsep : ∀ ch ∈ sep.text, isPlain ch = true) :
    ∀ {members : List (List Bare.Variant)}, MembersFit sep members → Skips sep
      (Text.joinWith [' '] (membersPrint id sep members))
      (Text.joinWith [' '] (membersPrint hollow sep members))
  | [], _ => Skips.plain (by simp [membersPrint, Text.joinWith])
  | [links], h => chainSkips hsep h.2.1
  | links :: more :: rest, h => by
    have hlinks : Skips sep (chainPrint id sep links ++ [' '])
        (chainPrint hollow sep links ++ [' ']) :=
      (chainSkips hsep h.2.1).append_plain (by decide)
    exact hlinks.append (Settles.of_last (by decide) _) (membersSkip hsep h.2.2)

end

mutual

theorem Bare.Expr.skips (hsep : ∀ ch ∈ sep.text, isPlain ch = true) :
    ∀ {e : Bare.Expr}, e.Fits sep → Skips sep (e.print id sep) (e.print hollow sep)
  | .group _ important, h =>
    (skips_bang important).append (Settles.bang important) (exprsSkip hsep h).parens
  | .span _ none, h => (Bare.Variant.skips hsep h).append_plain hsep
  | .span _ (some _), h =>
    ((Bare.Variant.skips hsep h.1).append_plain hsep).append (Settles.of_separator sep _)
      (Bare.Expr.skips hsep h.2)
  | .utility _ important, h => (skips_bang important).append (Settles.bang important) h.1.skips
  | .property _ important, h =>
    (skips_bang important).append (Settles.bang important) (Skips.boxed h)

theorem exprsSkip (hsep : ∀ ch ∈ sep.text, isPlain ch = true) :
    ∀ {es : List Bare.Expr}, ExprsFit sep es → Skips sep
      (Text.joinWith [' '] (exprsPrint id sep es))
      (Text.joinWith [' '] (exprsPrint hollow sep es))
  | [], _ => Skips.plain (by simp [exprsPrint, Text.joinWith])
  | [_], h => Bare.Expr.skips hsep h.1
  | e :: more :: rest, h => by
    have hfirst : Skips sep (e.print id sep ++ [' ']) (e.print hollow sep ++ [' ']) :=
      (Bare.Expr.skips hsep h.1).append_plain (by decide)
    exact hfirst.append (Settles.of_last (by decide) _) (exprsSkip hsep h.2)

end

end

/-- A printed group is closed by its own parenthesis. -/
theorem closing_of_skips {sep : Separator} {c : Cursor} {t s r : Text} (h : Skips sep t s)
    (hcomment : NoComment ('(' :: (s ++ [')'])))
    (hbefore : afterUrl c.before = true → endsUrl sep = true)
    (hc : c.rest = '(' :: (t ++ ')' :: r)) : closing c = ⟨t.length + 2, true⟩ := by
  have hinner : NoComment (s ++ (')' :: r).take 1) := by
    refine hcomment.of_infix ⟨['('], [], ?_⟩
    simp
  have hreach : reach .code 0 none c.before c.rest = some (t.length + 2) := by
    rw [hc, reach_open, h.scan 1 _ ('(' :: c.before) (')' :: r) (Nat.le_refl 1) ?_ ?_
      (fun h => absurd (toLower_of_afterUrl (t := []) h) (by decide)) hinner,
      reach_end (by decide)]
    · simp only [Option.map_some, Option.some.injEq]
      omega
    · intro m hm
      split at hm
      · obtain rfl : 0 + 1 = m := by simpa using hm
        omega
      · exact absurd hm (by simp)
    · intro hsome
      split at hsome
      next hopen => exact hbefore (Bool.and_eq_true_iff.mp hopen).2
      next => exact absurd hsome (by simp)
  rw [closing, hreach]

end ClassList
end UtilityCss
