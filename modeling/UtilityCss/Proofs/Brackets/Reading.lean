import UtilityCss.Proofs.Brackets.Token
import UtilityCss.Proofs.Bytewise.Scan

/-!
# The scanner reads tokens

The scanner of brackets gets over one token after the other (`reach_neutral`, `reach_opening`,
`reach_closing`), and where it finds the end of a range the source does begin with a token
(`exists_token`).  Both directions of the main theorem are an induction along the tokens that
carries the depth and the `url` argument the scanner is in.
-/

namespace UtilityCss
namespace Brackets

/-! ## Quotes and comments -/

theorem Quotable.reach {quote : Char} (hquote : quote ≠ '\x5c') {depth : Nat} {url : Option Nat}
    {body : Text} (h : Quotable quote body) : ∀ before r : Text,
      Brackets.reach (.quoted quote) depth url before (body ++ quote :: r) =
        (Brackets.reach .code depth url (quote :: (body.reverse ++ before)) r).map
          (· + (body.length + 1)) := by
  induction h with
  | nil =>
    intro before r
    rw [List.nil_append, Brackets.reach, if_pos rfl]
    · rfl
    · exact fun _ _ h => absurd h hquote
  | escape c _ ih =>
    intro before r
    rw [List.cons_append, List.cons_append, Brackets.reach, ih]
    simp [Function.comp_def, Nat.add_assoc]
  | plain hc hescape _ ih =>
    intro before r
    rw [List.cons_append, Brackets.reach, if_neg hc, ih]
    · simp [Function.comp_def, Nat.add_assoc]
    · exact fun _ _ h => absurd h hescape

/-- Where a scan that begins in quotes finds its end, the quotes are closed. -/
theorem exists_quotable {quote : Char} {depth : Nat} {url : Option Nat} : ∀ {before t : Text}
    {n : Nat}, reach (.quoted quote) depth url before t = some n →
    ∃ body r, t = body ++ quote :: r ∧ Quotable quote body
  | _, [], n, h => absurd h (by simp [reach])
  | before, [c], n, h => by
    by_cases hc : c = quote
    · exact ⟨[], [], by rw [hc]; rfl, .nil⟩
    · rw [reach, if_neg hc] at h
      · exact absurd h (by simp [reach])
      · exact fun _ _ _ h => absurd h (by simp)
  | before, c :: x :: t, n, h => by
    by_cases hescape : c = '\x5c'
    · subst hescape
      rw [reach] at h
      obtain ⟨m, hm, -⟩ := Option.map_eq_some_iff.mp h
      obtain ⟨body, r, rfl, hbody⟩ := exists_quotable hm
      exact ⟨'\x5c' :: x :: body, r, rfl, .escape x hbody⟩
    by_cases hc : c = quote
    · exact ⟨[], x :: t, by rw [hc]; rfl, .nil⟩
    · rw [reach, if_neg hc] at h
      · obtain ⟨m, hm, -⟩ := Option.map_eq_some_iff.mp h
        obtain ⟨body, r, ht, hbody⟩ := exists_quotable hm
        exact ⟨c :: body, r, by rw [ht]; rfl, .plain hc hescape hbody⟩
      · exact fun _ _ h _ => absurd h hescape

/-- A comment to the end of the line goes on to the first line break. -/
theorem reach_lineComment {depth : Nat} {url : Option Nat} : ∀ {body : Text}, '\n' ∉ body →
    ∀ before r : Text, reach .lineComment depth url before (body ++ '\n' :: r) =
      (reach .code depth url ('\n' :: (body.reverse ++ before)) r).map (· + (body.length + 1))
  | [], _, before, r => by
    rw [List.nil_append, reach, if_pos rfl]
    rfl
  | c :: body, h, before, r => by
    rw [List.mem_cons, not_or] at h
    rw [List.cons_append, reach, if_neg (Ne.symm h.1), reach_lineComment h.2]
    simp [Function.comp_def, Nat.add_assoc]

theorem exists_lineComment {depth : Nat} {url : Option Nat} : ∀ {before t : Text} {n : Nat},
    reach .lineComment depth url before t = some n → ∃ body r, t = body ++ '\n' :: r ∧ '\n' ∉ body
  | _, [], n, h => absurd h (by simp [reach])
  | before, c :: t, n, h => by
    by_cases hc : c = '\n'
    · exact ⟨[], t, by rw [hc]; rfl, List.not_mem_nil⟩
    · rw [reach, if_neg hc] at h
      obtain ⟨m, hm, -⟩ := Option.map_eq_some_iff.mp h
      obtain ⟨body, r, rfl, hbody⟩ := exists_lineComment hm
      exact ⟨c :: body, r, rfl, by simp [Ne.symm hc, hbody]⟩

/-- A comment between stars goes on to the first star in front of a slash. -/
theorem reach_blockComment {depth : Nat} {url : Option Nat} : ∀ {body : Text},
    ¬['*', '/'] <:+: body ++ ['*'] → ∀ before r : Text,
      reach .blockComment depth url before (body ++ '*' :: '/' :: r) =
        (reach .code depth url ('/' :: '*' :: (body.reverse ++ before)) r).map
          (· + (body.length + 2))
  | [], _, before, r => by
    rw [List.nil_append, reach]
    rfl
  | c :: body, h, before, r => by
    have hrest : ¬['*', '/'] <:+: body ++ ['*'] := fun hi =>
      h (hi.trans (List.suffix_cons ..).isInfix)
    rw [List.cons_append, reach, reach_blockComment hrest]
    · simp [Function.comp_def, Nat.add_assoc]
    · -- a star here would have to be in front of a slash of `body`
      rintro u rfl hu
      cases body with
      | nil => exact absurd (List.cons.inj hu).1 (by decide)
      | cons x body =>
        obtain ⟨rfl, -⟩ := List.cons.inj hu
        exact h ⟨[], body ++ ['*'], rfl⟩

theorem exists_blockComment {depth : Nat} {url : Option Nat} : ∀ {before t : Text} {n : Nat},
    reach .blockComment depth url before t = some n →
    ∃ body r, t = body ++ '*' :: '/' :: r ∧ ¬['*', '/'] <:+: body ++ ['*']
  | _, [], n, h => absurd h (by simp [reach])
  | before, c :: t, n, h => by
    by_cases hend : c = '*' ∧ ∃ u, t = '/' :: u
    · obtain ⟨rfl, u, rfl⟩ := hend
      refine ⟨[], u, rfl, fun hi => ?_⟩
      exact absurd hi.length_le (by decide)
    · rw [reach] at h
      · obtain ⟨m, hm, -⟩ := Option.map_eq_some_iff.mp h
        obtain ⟨body, r, rfl, hbody⟩ := exists_blockComment hm
        refine ⟨c :: body, r, rfl, fun hi => ?_⟩
        rcases List.infix_cons_iff.mp hi with hp | hi
        · obtain ⟨u, hu⟩ := hp
          obtain ⟨rfl, hu'⟩ := List.cons.inj hu
          cases body with
          | nil => exact absurd (List.cons.inj hu').1 (by decide)
          | cons x body =>
            obtain ⟨rfl, -⟩ := List.cons.inj hu'
            exact hend ⟨rfl, _, rfl⟩
        · exact hbody hi
      · exact fun u hc hu => hend ⟨hc, u, hu⟩

/-! ## One token -/

section

variable {depth : Nat} {url : Option Nat}

/-- The scanner gets over a token that is no bracket. -/
theorem reach_neutral {tok : Token} {before r : Text} (htok : tok.level = 0)
    (h : tok.Starts (url.isSome = true) r.head?) :
    reach .code depth url before (tok.text ++ r) =
      (reach .code depth url (tok.text.reverse ++ before) r).map (· + tok.text.length) := by
  cases tok with
  | escape c => simp [Token.text, reach]
  | quoted quote body =>
    obtain ⟨hquote, hbody⟩ := h
    rw [Token.text, List.cons_append, List.append_assoc,
      reach_code (.of_class hquote (by decide) (by decide)), if_pos hquote, List.singleton_append,
      hbody.reach (Text.ne_of_class hquote (by decide))]
    simp [Function.comp_def, Nat.add_assoc]
  | blockComment body =>
    obtain ⟨hurl, hbody⟩ := h
    obtain rfl : url = none := by simpa using hurl
    rw [Token.text, List.cons_append, List.cons_append, reach, List.append_assoc, List.cons_append,
      List.singleton_append, reach_blockComment hbody]
    simp [Function.comp_def, Nat.add_assoc]
  | lineComment body =>
    obtain ⟨hurl, hbody⟩ := h
    obtain rfl : url = none := by simpa using hurl
    rw [Token.text, List.cons_append, List.cons_append, reach, List.append_assoc,
      List.singleton_append, reach_lineComment hbody]
    simp [Function.comp_def, Nat.add_assoc]
  | opening c => exact absurd htok (by simp [Token.level])
  | closing c => exact absurd htok (by simp [Token.level])
  | other c =>
    obtain ⟨hquote, hopen, hclose, hescape, hslash⟩ := h
    have hsingle : Single url c r := by
      refine ⟨fun hc => List.head?_eq_none_iff.mp (hescape hc), ?_⟩
      rintro hc rfl x u rfl
      simpa using hslash hc (by simp)
    rw [Token.text, List.singleton_append, reach_code hsingle, hquote, hopen, hclose]
    rfl

/-- Where the scanner finds the end of a range, the source begins with a token. -/
theorem exists_token {before t : Text} {n : Nat} (h : reach .code depth url before t = some n) :
    ∃ tok r, t = Token.text tok ++ r ∧ tok.Starts (url.isSome = true) r.head? := by
  obtain ⟨x, v, ht⟩ := exists_cons_of_reach h
  rcases exists_step ⟨.code, depth, url⟩ before (ht ▸ List.cons_ne_nil x v) with
    ⟨-, -, c, u, rfl, hclose⟩ | ⟨p, u, s, rfl, hstep⟩
  · exact ⟨.closing c, u, rfl, hclose⟩
  have hrest := hstep.reach_eq.symm.trans h
  obtain ⟨m, hm, -⟩ := Option.map_eq_some_iff.mp hrest
  cases hstep with
  | escape c => exact ⟨.escape c, u, rfl, trivial⟩
  | blockCommentStart =>
    obtain ⟨body, r, rfl, hbody⟩ := exists_blockComment hm
    exact ⟨.blockComment body, r, by simp [Token.text], by simp, hbody⟩
  | lineCommentStart =>
    obtain ⟨body, r, rfl, hbody⟩ := exists_lineComment hm
    exact ⟨.lineComment body, r, by simp [Token.text], by simp, hbody⟩
  | @quote _ _ c hquote =>
    obtain ⟨body, r, rfl, hbody⟩ := exists_quotable hm
    exact ⟨.quoted c body, r, by simp [Token.text], hquote, hbody⟩
  | @opening _ _ c hopen => exact ⟨.opening c, u, rfl, hopen⟩
  | @closing _ _ c hclose => exact ⟨.closing c, u, rfl, hclose⟩
  | @other _ _ c hsingle hquote hopen hclose =>
    refine ⟨.other c, u, rfl, hquote, hopen, hclose, fun hc => ?_, fun hc hurl => ?_⟩
    · rw [hsingle.escape hc]
      rfl
    · have hurl : url = none := by simpa using hurl
      cases u with
      | nil => exact ⟨by simp, by simp⟩
      | cons x r => simpa using hsingle.comment hc hurl x r rfl

end

/-! ## Tokens in a row -/

theorem Token.Starts.congr {p q : Prop} (hpq : p ↔ q) {tok : Token} {next : Option Char} :
    tok.Starts p next ↔ tok.Starts q next := by
  rw [propext hpq]

/-- The scanner finds the end of a range where the tokens first return to the level outside. -/
theorem reach_of_reads {behind : Text} : ∀ {b a : List Token} {url : Option Nat} {depth : Nat}
    {rest : Text}, UrlAt behind a url → level a = depth → 1 ≤ depth → Reads behind a b rest →
    level (a ++ b) = 0 → (∀ p, p <+: b → p ≠ b → level (a ++ p) ≠ 0) →
    reach .code depth url ((texts a).reverse ++ behind) (texts b ++ rest) = some (texts b).length
  | [], a, url, depth, rest, _, hlevel, hdepth, _, hend, _ => by
    rw [List.append_nil] at hend
    omega
  | tok :: b, a, url, depth, rest, hurl, hlevel, hdepth, hreads, hend, hfirst => by
    obtain ⟨hstarts, hreads⟩ := hreads
    have hbehind : (texts (a ++ [tok])).reverse ++ behind =
        tok.text.reverse ++ ((texts a).reverse ++ behind) := by simp
    have hfirst' : ∀ p, p <+: b → p ≠ b → level (a ++ [tok] ++ p) ≠ 0 := fun p hp hne => by
      rw [List.append_assoc]
      exact hfirst (tok :: p) ((List.prefix_cons_inj tok).mpr hp) (fun h => hne (List.cons.inj h).2)
    have hend' : level (a ++ [tok] ++ b) = 0 := by rwa [List.append_assoc]
    rw [texts_cons, List.append_assoc]
    cases tok with
    | opening c =>
      have hlevel' : level (a ++ [.opening c]) = (depth + 1 : Nat) := by
        simp [Token.level, hlevel]
      have ih := reach_of_reads (hurl.concat_opening hlevel c) hlevel' (by omega) hreads hend'
        hfirst'
      have hopen : isOpening c = true := hstarts
      rw [hbehind, Token.text, List.reverse_singleton, List.singleton_append] at ih
      rw [Token.text, List.singleton_append, reach_opening hopen, ih]
      simp
    | closing c =>
      have hclose : isClosing c = true := hstarts
      rw [Token.text, List.singleton_append, reach_closing hclose]
      by_cases hlast : depth ≤ 1
      · -- the level is back at zero, and so this is the last token
        have hb : b = [] := by
          by_contra hne
          refine hfirst [.closing c] ((List.prefix_cons_inj _).mpr (List.nil_prefix ..))
            (fun h => hne (List.cons.inj h).2.symm) ?_
          simp only [level_append, level_cons, level_nil, Token.level]
          omega
        rw [if_pos hlast, hb]
        rfl
      · have hlevel' : level (a ++ [.closing c]) = (depth - 1 : Nat) := by
          simp only [level_append, level_cons, level_nil, Token.level]
          omega
        have ih := reach_of_reads (hurl.concat_closing hlevel c) hlevel' (by omega) hreads hend'
          hfirst'
        rw [hbehind, Token.text, List.reverse_singleton, List.singleton_append] at ih
        rw [if_neg hlast, ih]
        simp
    | escape | quoted | blockComment | lineComment | other =>
      have ih := reach_of_reads (hurl.concat rfl) (Eq.trans (by simp [Token.level]) hlevel) hdepth
        hreads hend' hfirst'
      rw [hbehind] at ih
      rw [reach_neutral rfl ((Token.Starts.congr hurl.isSome_iff).mpr hstarts), ih]
      simp [Nat.add_comm]

/-- The end of a range that the scanner finds is where the tokens return to the level outside. -/
theorem exists_reads {behind : Text} {N : Nat} : ∀ {a : List Token} {url : Option Nat}
    {depth : Nat} {t : Text} {n : Nat}, t.length ≤ N → UrlAt behind a url → level a = depth →
    1 ≤ depth → reach .code depth url ((texts a).reverse ++ behind) t = some n →
    ∃ b rest, t = texts b ++ rest ∧ Reads behind a b rest ∧ level (a ++ b) = 0 ∧
      (∀ p, p <+: b → p ≠ b → level (a ++ p) ≠ 0) ∧ n = (texts b).length := by
  induction N with
  | zero =>
    intro a url depth t n hN hurl hlevel hdepth h
    rw [List.eq_nil_of_length_eq_zero (Nat.le_zero.mp hN)] at h
    exact absurd h (by simp [reach])
  | succ N IH =>
    intro a url depth t n hN hurl hlevel hdepth h
    obtain ⟨tok, r, rfl, hstarts⟩ := exists_token h
    -- the scan of the rest finds the tokens behind this one
    have further : ∀ {url' : Option Nat} {depth' m : Nat}, UrlAt behind (a ++ [tok]) url' →
        level (a ++ [tok]) = depth' → 1 ≤ depth' →
        reach .code depth' url' (tok.text.reverse ++ ((texts a).reverse ++ behind)) r = some m →
        n = m + tok.text.length →
        ∃ b rest, tok.text ++ r = texts b ++ rest ∧ Reads behind a b rest ∧ level (a ++ b) = 0 ∧
          (∀ p, p <+: b → p ≠ b → level (a ++ p) ≠ 0) ∧ n = (texts b).length := by
      intro url' depth' m hurl' hlevel' hdepth' hm hn
      have hlength : r.length ≤ N := by
        have hpos := List.length_pos_iff.mpr tok.text_ne_nil
        rw [List.length_append] at hN
        omega
      have hbehind : tok.text.reverse ++ ((texts a).reverse ++ behind) =
          (texts (a ++ [tok])).reverse ++ behind := by simp
      rw [hbehind] at hm
      obtain ⟨b, rest, rfl, hreads, hend, hfirst, rfl⟩ := IH hlength hurl' hlevel' hdepth' hm
      rw [List.append_assoc] at hend
      refine ⟨tok :: b, rest, by simp, ⟨(Token.Starts.congr hurl.isSome_iff).mp hstarts, hreads⟩,
        hend, fun p hp hne => ?_, by simp [hn, Nat.add_comm]⟩
      rcases List.prefix_cons_iff.mp hp with rfl | ⟨p', rfl, hp'⟩
      · rw [List.append_nil, hlevel]
        omega
      · have := hfirst p' hp' fun heq => hne (by rw [heq])
        rwa [List.append_assoc] at this
    cases tok with
    | opening c =>
      have hopen : isOpening c = true := hstarts
      rw [Token.text, List.singleton_append, reach_opening hopen] at h
      obtain ⟨m, hm, rfl⟩ := Option.map_eq_some_iff.mp h
      exact further (hurl.concat_opening hlevel c) (by simp [Token.level, hlevel])
        (Nat.succ_le_succ (Nat.zero_le depth)) hm rfl
    | closing c =>
      have hclose : isClosing c = true := hstarts
      rw [Token.text, List.singleton_append, reach_closing hclose] at h
      by_cases hlast : depth ≤ 1
      · rw [if_pos hlast] at h
        refine ⟨[.closing c], r, rfl, ⟨hstarts, trivial⟩, ?_, fun p hp hne => ?_,
          (Option.some.inj h).symm⟩
        · simp only [level_append, level_cons, level_nil, Token.level]
          omega
        · rcases List.prefix_cons_iff.mp hp with rfl | ⟨p', rfl, hp'⟩
          · rw [List.append_nil, hlevel]
            omega
          · rw [List.prefix_nil.mp hp'] at hne
            exact absurd rfl hne
      · rw [if_neg hlast] at h
        obtain ⟨m, hm, rfl⟩ := Option.map_eq_some_iff.mp h
        have hlevel' : level (a ++ [.closing c]) = (depth - 1 : Nat) := by
          simp only [level_append, level_cons, level_nil, Token.level]
          omega
        exact further (hurl.concat_closing hlevel c) hlevel' (by omega) hm rfl
    | escape | quoted | blockComment | lineComment | other =>
      rw [reach_neutral rfl hstarts] at h
      obtain ⟨m, hm, rfl⟩ := Option.map_eq_some_iff.mp h
      exact further (hurl.concat rfl) (by simp [Token.level, hlevel]) hdepth hm rfl

/-! ## The end of a range -/

/-- Behind `p` the text is read as tokens that return to the level outside at the byte offset `e`,
and not before. -/
def ReturnsAt (p t : Text) (e : Nat) : Prop :=
  ∃ ts rest, t = texts ts ++ rest ∧ Reads p.reverse [] ts rest ∧ FirstReturn ts ∧
    e = Text.bytes p + Text.bytes (texts ts)

/-- A source that begins with an opening bracket is read as that token. -/
theorem Token.Starts.eq_opening {inUrl : Prop} {next : Option Char} {tok : Token} {op : Char}
    {r t : Text} (h : tok.Starts inUrl next) (htext : tok.text ++ r = op :: t)
    (hop : isOpening op = true) : tok = .opening op := by
  have hne : ∀ x, isOpening x = false → x ≠ op := fun _ hx => (Text.ne_of_class hop hx).symm
  cases tok with
  | opening c => rw [(List.cons.inj htext).1]
  | escape c => exact absurd (List.cons.inj htext).1 (hne _ (by decide))
  | quoted quote body =>
    rw [(List.cons.inj htext).1] at h
    exact absurd (h.1.symm.trans (isQuote_of_isOpening hop)) (by decide)
  | blockComment body => exact absurd (List.cons.inj htext).1 (hne _ (by decide))
  | lineComment body => exact absurd (List.cons.inj htext).1 (hne _ (by decide))
  | closing c =>
    obtain rfl := (List.cons.inj htext).1
    exact absurd (Eq.trans (Eq.symm h) (isClosing_of_isOpening hop)) (by decide)
  | other c => exact absurd (List.cons.inj htext).1 (hne _ h.2.1)

/-- The first token that returns is read the same whatever is behind it. -/
theorem Reads.replace {behind : Text} {last : Token} (hlast : last.level ≠ 0) {rest rest' : Text} :
    ∀ {ts a : List Token}, Reads behind a (ts ++ [last]) rest → Reads behind a (ts ++ [last]) rest'
  | [], a, h => by
    cases last with
    | opening c => exact h
    | closing c => exact h
    | _ => exact absurd rfl hlast
  | tok :: ts, a, h => by
    have hne : texts (ts ++ [last]) ≠ [] := by
      rw [texts_append]
      exact List.append_ne_nil_of_right_ne_nil _ (by simpa using last.text_ne_nil)
    have hnext : (texts (ts ++ [last]) ++ rest).head? = (texts (ts ++ [last]) ++ rest').head? := by
      rw [List.head?_append_of_ne_nil _ hne, List.head?_append_of_ne_nil _ hne]
    exact ⟨hnext ▸ h.1, Reads.replace hlast h.2⟩

section

variable {op : Char} (hop : isOpening op = true)

theorem urlAt_opening (behind : Text) (op : Char) : UrlAt behind [.opening op]
    (if op = '(' && (none : Option Nat).isNone && afterUrl behind then some (0 + 1) else none) := by
  have hout : UrlAt behind [] none := by
    rintro ⟨a, b, h, -⟩
    exact absurd h.symm (by simp)
  have hlevel : level [] = (0 : Nat) := rfl
  exact hout.concat_opening hlevel op

include hop

/-- The scan that begins at an opening bracket stops where the tokens return. -/
theorem reach_eq_some_iff (p t : Text) (n : Nat) : reach .code 0 none p.reverse (op :: t) = some n ↔
    ∃ ts rest, op :: t = texts ts ++ rest ∧ Reads p.reverse [] ts rest ∧ FirstReturn ts ∧
      n = (texts ts).length := by
  have hurl := urlAt_opening p.reverse op
  rw [reach_opening hop]
  constructor
  · intro h
    obtain ⟨m, hm, rfl⟩ := Option.map_eq_some_iff.mp h
    obtain ⟨b, rest, rfl, hreads, hend, hfirst, rfl⟩ :=
      exists_reads (Nat.le_refl _) hurl (by simp [Token.level]) (Nat.le_refl 1) hm
    refine ⟨.opening op :: b, rest, rfl, ⟨hop, hreads⟩, ⟨by simp, hend, fun q hq hne hproper => ?_⟩,
      by simp [Token.text, Nat.add_comm]⟩
    obtain ⟨x, rfl, hx⟩ := (List.prefix_cons_iff.mp hq).resolve_left hne
    exact hfirst x hx fun heq => hproper (by rw [heq])
  · rintro ⟨_ | ⟨tok, b⟩, rest, htext, hreads, ⟨hne, hend, hfirst⟩, rfl⟩
    · exact absurd rfl hne
    rw [texts_cons, List.append_assoc] at htext
    obtain rfl := hreads.1.eq_opening htext.symm hop
    obtain rfl : t = texts b ++ rest := (List.cons.inj htext).2
    have hlevel : level [.opening op] = (1 : Nat) := by simp [Token.level]
    have hreach := reach_of_reads hurl hlevel (Nat.le_refl 1) hreads.2 hend fun x hx hproper =>
      hfirst (.opening op :: x) ((List.prefix_cons_inj _).mpr hx) (by simp)
        fun heq => hproper (List.cons.inj heq).2
    rw [show (texts [Token.opening op]).reverse ++ p.reverse = op :: p.reverse from rfl] at hreach
    rw [hreach]
    simp [Token.text, Nat.add_comm]

end

theorem seek_bytes : ∀ p before r : Text, seek (Text.bytes p) before (p ++ r) =
    ⟨p.reverse ++ before, r⟩
  | [], before, [] => rfl
  | [], before, _ :: _ => rfl
  | c :: p, before, r => by
    obtain ⟨n, hn⟩ : ∃ n, Text.bytes (c :: p) = n + 1 :=
      Nat.exists_eq_succ_of_ne_zero (Nat.ne_of_gt (Text.bytes_pos (List.cons_ne_nil c p)))
    have hrest : n + 1 - c.utf8Size = Text.bytes p := by
      rw [← hn, Text.bytes_cons, Nat.add_sub_cancel_left]
    rw [hn, List.cons_append, seek, hrest, seek_bytes p]
    simp

/-- A range that starts at an offset ends where the scan from there on stops. -/
theorem closingAt_bytes (p r : Text) : closingAt (p ++ r) (Text.bytes p) =
    match reach .code 0 none p.reverse r with
    | some n => (Text.bytes p + Text.bytes (r.take n), true)
    | none => (Text.bytes (p ++ r), false) := by
  have hoffset (n : Nat) : ((⟨p.reverse, r⟩ : Cursor).advance n).offset =
      Text.bytes p + Text.bytes (r.take n) := by
    rw [(Cursor.passes_advance _ n).offset, Cursor.offset, Text.bytes_reverse]
  rw [closingAt, seek_bytes, List.append_nil, hoffset, closing]
  cases reach .code 0 none p.reverse r with
  | some n => rfl
  | none => simp

/-- **A bracketed range ends with the first token at which as many brackets are closed as were
opened**; if there is none it is not closed and extends to the end of the source.  What is behind
the end of a closed range has no influence on it, and the scan of the octets finds the same end. -/
theorem closingAt_first_return {op : Char} (hop : isOpening op = true) (p t : Text) :
    (∀ e, closingAt (p ++ op :: t) (Text.bytes p) = (e, true) ↔ ReturnsAt p (op :: t) e) ∧
    ((∀ e, ¬ReturnsAt p (op :: t) e) →
      closingAt (p ++ op :: t) (Text.bytes p) = (Text.bytes (p ++ op :: t), false)) ∧
    (∀ front back u, p ++ op :: t = front ++ back →
      closingAt (p ++ op :: t) (Text.bytes p) = (Text.bytes front, true) →
      closingAt (front ++ u) (Text.bytes p) = (Text.bytes front, true)) ∧
    Bytewise.closing (p ++ op :: t) (Text.bytes p) = closingAt (p ++ op :: t) (Text.bytes p) := by
  have hiff : ∀ t e, closingAt (p ++ op :: t) (Text.bytes p) = (e, true) ↔
      ReturnsAt p (op :: t) e := by
    intro t e
    rw [closingAt_bytes]
    constructor
    · intro h
      split at h
      next n hn =>
        obtain ⟨ts, rest, htext, hreads, hfirst, rfl⟩ := (reach_eq_some_iff hop p t n).mp hn
        obtain ⟨rfl, -⟩ := Prod.mk.inj h
        exact ⟨ts, rest, htext, hreads, hfirst, by rw [htext, List.take_left' rfl]⟩
      next => exact absurd (Prod.mk.inj h).2 (by decide)
    · rintro ⟨ts, rest, htext, hreads, hfirst, rfl⟩
      rw [(reach_eq_some_iff hop p t _).mpr ⟨ts, rest, htext, hreads, hfirst, rfl⟩]
      dsimp only
      rw [htext, List.take_left' rfl]
  refine ⟨hiff t, fun hnone => ?_, fun front back u hsource hclosed => ?_, ?_⟩
  · have hopen : ∀ e, closingAt (p ++ op :: t) (Text.bytes p) ≠ (e, true) := fun e he =>
      hnone e ((hiff t e).mp he)
    rw [closingAt_bytes] at hopen ⊢
    split
    next n hn =>
      rw [hn] at hopen
      exact absurd rfl (hopen _)
    next => rfl
  · obtain ⟨ts, rest, htext, hreads, hfirst, hbytes⟩ := (hiff t _).mp hclosed
    -- the source is cut in one way at the end of the range
    obtain rfl : front = p ++ texts ts := by
      have hcut := Text.cut?_eq_some_iff.mpr ⟨hsource, rfl⟩
      have hcut' : Text.cut? (Text.bytes front) (p ++ op :: t) = some (p ++ texts ts, rest) :=
        Text.cut?_eq_some_iff.mpr ⟨by rw [htext, List.append_assoc], by
          rw [hbytes, Text.bytes_append]⟩
      exact (Prod.mk.inj (Option.some.inj (hcut.symm.trans hcut'))).1
    obtain ⟨hne, hend, hproper⟩ := hfirst
    obtain ⟨tok, b, rfl⟩ := List.exists_cons_of_ne_nil hne
    rw [texts_cons, List.append_assoc] at htext
    obtain rfl := hreads.1.eq_opening htext.symm hop
    -- the last token returns, so it is a bracket
    obtain rfl | ⟨b, last, rfl⟩ := List.eq_nil_or_concat' b
    · exact absurd hend (by simp [Token.level])
    have hlast : last.level ≠ 0 := by
      intro hzero
      refine hproper (.opening op :: b) (List.prefix_append _ [last]) (by simp) (by simp) ?_
      simpa [hzero] using hend
    rw [List.append_assoc]
    refine (hiff (texts (b ++ [last]) ++ u) _).mpr ⟨.opening op :: (b ++ [last]), u, rfl, ?_,
      ⟨hne, hend, hproper⟩, Text.bytes_append ..⟩
    rw [← List.cons_append]
    exact Reads.replace hlast hreads
  · have hsource : (⟨p.reverse, op :: t⟩ : Cursor).source = p ++ op :: t := by
      simp [Cursor.source]
    have hoffset : (⟨p.reverse, op :: t⟩ : Cursor).offset = Text.bytes p := Text.bytes_reverse p
    rw [← hoffset, Bytewise.closing_offset hsource, closingAt, hoffset, seek_bytes, List.append_nil]

/-- The slashes of an address begin no comment, and brackets do not count in quotes, in a comment
and behind a backslash; what is behind the range may be exchanged. -/
theorem closingAt_first_return_address : isOpening '[' = true ∧
    ReturnsAt "bg-" ('[' :: "uRl(//é)\x22]\x22\\]/*[*/]]".toList) 24 ∧
      closingAt ("bg-[uRl(//é)\x22]\x22\\]/*[*/]".toList ++ "((".toList) 3 = (24, true) := by
  have hop : isOpening '[' = true := rfl
  have h := closingAt_first_return hop "bg-" "uRl(//é)\x22]\x22\\]/*[*/]]".toList
  have hclosed : closingAt ("bg-".toList ++ '[' :: "uRl(//é)\x22]\x22\\]/*[*/]]".toList) 3 =
      (24, true) := by decide
  exact ⟨hop, (h.1 24).mp hclosed,
    h.2.2.1 "bg-[uRl(//é)\x22]\x22\\]/*[*/]" [']'] "((" (by decide) hclosed⟩

end Brackets
end UtilityCss
