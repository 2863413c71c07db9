import UtilityCss.Proofs.Brackets.Reading

/-!
# Well-nested texts

A text is well nested if its quotes and brackets come in pairs, the brackets around well-nested
texts, and no comment begins outside of the quotes.  The scanner does not ask which bracket
closes which, so the three kinds may close each other.

The scanner gets over a well-nested text and is then in the state it was in, whatever it came
from: a `url` argument that the text opens, it also closes.  Hence the bracket around a well-nested
text closes at its end.
-/

namespace UtilityCss
namespace Brackets

/-- The quotes and brackets of the text come in pairs, and no comment begins in it. -/
inductive Nested : Text → Prop where
  | nil : Nested []
  | plain {c : Char} {t : Text} : isPlain c = true →
    (c = '/' → ∀ x u, t = x :: u → x ≠ '*' ∧ x ≠ '/') → Nested t → Nested (c :: t)
  | quoted {quote : Char} {s t : Text} : isQuote quote = true → quote ∉ s → '\x5c' ∉ s →
    Nested t → Nested (quote :: (s ++ quote :: t))
  | boxed {op close : Char} {s t : Text} : isOpening op = true → isClosing close = true →
    Nested s → Nested t → Nested (op :: (s ++ close :: t))

/-- A run of ordinary characters without a slash. -/
theorem Nested.run {t u : Text} (ht : ∀ c ∈ t, isPlain c = true ∧ c ≠ '/') (hu : Nested u) :
    Nested (t ++ u) := by
  induction t with
  | nil => exact hu
  | cons c t ih =>
    obtain ⟨⟨hplain, hslash⟩, ht⟩ := List.forall_mem_cons.mp ht
    exact .plain hplain (fun h => absurd h hslash) (ih ht)

/-- Over a well-nested text the scanner comes back to where it was. -/
theorem Nested.reach {t : Text} (h : Nested t) : ∀ {depth : Nat} {url : Option Nat},
    1 ≤ depth → (∀ m ∈ url, m ≤ depth) → ∀ before r : Text,
      (∀ x u, r = x :: u → x ≠ '*' ∧ x ≠ '/') →
      Brackets.reach .code depth url before (t ++ r) =
        (Brackets.reach .code depth url (t.reverse ++ before) r).map (· + t.length) := by
  induction h with
  | nil => simp
  | @plain c t hc hslash _ ih =>
    intro depth url hdepth hurl before r hr
    obtain ⟨hquote, hopen, hclose, hescape⟩ := isPlain_iff.mp hc
    have hnext : c = '/' → url = none → ∀ x u, t ++ r = x :: u → x ≠ '*' ∧ x ≠ '/' := by
      intro hc _ x u hx
      cases t with
      | nil => exact hr x u hx
      | cons y t => exact hslash hc x t (by rw [(List.cons.inj hx).1])
    rw [List.cons_append, reach_code ⟨fun h => absurd h hescape, hnext⟩, hquote, hopen, hclose,
      ih hdepth hurl (c :: before) r hr]
    simp [Function.comp_def, Nat.add_assoc]
  | @quoted quote s t hquote hs hescape _ ih =>
    intro depth url hdepth hurl before r hr
    rw [List.cons_append, List.append_assoc, List.cons_append,
      reach_code (.of_class hquote (by decide) (by decide)), if_pos hquote,
      (quotable_of_not_mem hs hescape).reach (Text.ne_of_class hquote (by decide)),
      ih hdepth hurl _ r hr]
    simp only [Option.map_map, Function.comp_def, List.reverse_cons, List.reverse_append,
      List.append_assoc, List.cons_append, List.nil_append, List.length_cons, List.length_append]
    exact congrArg (Option.map · _) (funext fun n => by omega)
  | @boxed op close s t hop hclose _ _ ihs iht =>
    intro depth url hdepth hurl before r hr
    -- the argument that the bracket opens, if it opens one
    let url' := if op = '(' && url.isNone && afterUrl before then some (depth + 1) else url
    have hurl' : ∀ m ∈ url', m ≤ depth + 1 := by
      intro m hm
      simp only [url'] at hm
      split at hm
      · exact Nat.le_of_eq (Option.some.inj hm).symm
      · exact Nat.le_succ_of_le (hurl m hm)
    have hback : (if url' = some (depth + 1) then none else url') = url := by
      simp only [url']
      split
      next hopens =>
        simp only [Bool.and_eq_true, Option.isNone_iff_eq_none] at hopens
        rw [if_pos rfl, hopens.1.2]
      next =>
        refine if_neg fun hsome => ?_
        have := hurl _ hsome
        omega
    have hafter : Brackets.reach .code (depth + 1) url' (s.reverse ++ op :: before)
          (close :: (t ++ r)) =
        (Brackets.reach .code depth url (t.reverse ++ close :: (s.reverse ++ op :: before)) r).map
          (· + (t.length + 1)) := by
      rw [reach_closing hclose, if_neg (by omega), hback, Nat.add_sub_cancel,
        iht hdepth hurl _ r hr]
      simp [Function.comp_def, Nat.add_assoc]
    rw [List.cons_append, List.append_assoc, List.cons_append, reach_opening hop]
    show (Brackets.reach .code (depth + 1) url' (op :: before) _).map _ = _
    rw [ihs (Nat.succ_le_succ (Nat.zero_le _)) hurl' (op :: before) _ (fun x u hx => by
      rw [← (List.cons.inj hx).1]
      exact ⟨Text.ne_of_class hclose (by decide), Text.ne_of_class hclose (by decide)⟩), hafter]
    simp only [Option.map_map, Function.comp_def, List.reverse_cons, List.reverse_append,
      List.append_assoc, List.cons_append, List.nil_append, List.length_cons, List.length_append]
    exact congrArg (Option.map · _) (funext fun n => by omega)

/-- The bracket around a well-nested text closes at its end. -/
theorem Nested.sealed {t : Text} (h : Nested t) : Sealed false t := by
  have hover : Brackets.reach .code 1 none ['['] (t ++ [']']) =
      (Brackets.reach .code 1 none (t.reverse ++ ['[']) [']']).map (· + t.length) :=
    h.reach (Nat.le_refl 1) (by simp) ['['] [']'] fun x u hx => by
      rw [← (List.cons.inj hx).1]
      exact ⟨by decide, by decide⟩
  rw [Sealed, reach_bracket]
  show (Brackets.reach .code 1 none ['['] (t ++ [']'])).map _ = _
  rw [hover, reach_end (by decide)]
  simp only [Option.map_some, Option.some.injEq]
  omega

end Brackets
end UtilityCss
