import UtilityCss.Proofs.Brackets

/-!
# The tokens between brackets

What the scanner of brackets does can be said without its modes: a source is read as tokens, and
a bracketed range ends with the first token at which as many brackets are closed as were opened.

Whether a slash begins a comment depends on what is around it.  Inside the argument of a `url(`
nothing is a comment, and the argument goes on until its own bracket is closed, whatever other
brackets are opened and closed in it.  So the tokens already read decide how the next one is read
(`Starts`), and a reading is a list of tokens each of which is the right one behind those in front
of it (`Reads`).
-/

namespace UtilityCss
namespace Brackets

/-- A part of a source that is read as a whole. -/
inductive Token where
  /-- A backslash takes the next character with it. -/
  | escape (c : Char)
  | quoted (quote : Char) (body : Text)
  | blockComment (body : Text)
  | lineComment (body : Text)
  | opening (c : Char)
  | closing (c : Char)
  | other (c : Char)
  deriving DecidableEq

/-- What may stand between two quotes: any character but the quote, and escaped ones. -/
inductive Quotable (quote : Char) : Text → Prop where
  | nil : Quotable quote []
  | escape (c : Char) {body : Text} : Quotable quote body → Quotable quote ('\x5c' :: c :: body)
  | plain {c : Char} {body : Text} : c ≠ quote → c ≠ '\x5c' → Quotable quote body →
    Quotable quote (c :: body)

theorem quotable_of_not_mem {quote : Char} : ∀ {body : Text}, quote ∉ body → '\x5c' ∉ body →
    Quotable quote body
  | [], _, _ => .nil
  | c :: body, hquote, hescape => by
    rw [List.mem_cons, not_or] at hquote hescape
    exact .plain (Ne.symm hquote.1) (Ne.symm hescape.1) (quotable_of_not_mem hquote.2 hescape.2)

namespace Token

/-- The characters of the token. -/
def text : Token → Text
  | escape c => ['\x5c', c]
  | quoted quote body => quote :: (body ++ [quote])
  | blockComment body => '/' :: '*' :: (body ++ ['*', '/'])
  | lineComment body => '/' :: '/' :: (body ++ ['\n'])
  | opening c | closing c | other c => [c]

/-- The brackets that the token opens, less those that it closes. -/
def level : Token → Int
  | opening _ => 1
  | closing _ => -1
  | _ => 0

/-- Is a source read as this token, inside of a `url` argument or not, if `next` is the character
behind the token?  A comment ends where it first can; a slash in front of another one or of a star
is no token of its own outside of such arguments, nor is a backslash unless it is the last
character. -/
def Starts (inUrl : Prop) (next : Option Char) : Token → Prop
  | escape _ => True
  | quoted quote body => isQuote quote = true ∧ Quotable quote body
  | blockComment body => ¬inUrl ∧ ¬['*', '/'] <:+: body ++ ['*']
  | lineComment body => ¬inUrl ∧ '\n' ∉ body
  | opening c => isOpening c = true
  | closing c => isClosing c = true
  | other c => isQuote c = false ∧ isOpening c = false ∧ isClosing c = false ∧
      (c = '\x5c' → next = none) ∧ (c = '/' → ¬inUrl → next ≠ some '*' ∧ next ≠ some '/')

theorem text_ne_nil (tok : Token) : tok.text ≠ [] := by cases tok <;> exact List.cons_ne_nil _ _

end Token

/-- The text of tokens in a row. -/
def texts (ts : List Token) : Text := ts.flatMap Token.text

/-- The brackets that the tokens open, less those that they close. -/
def level : List Token → Int
  | [] => 0
  | tok :: ts => tok.level + level ts

/-- Behind the tokens the scanner is inside the argument of a `url(`, in letters of any case: one
of them opened it and none of the later ones closed it.  The text `behind` is in front of the
tokens, nearest character first. -/
def InUrl (behind : Text) (ts : List Token) : Prop :=
  ∃ a b, ts = a ++ .opening '(' :: b ∧ afterUrl ((texts a).reverse ++ behind) = true ∧
    ∀ p, p <+: b → 0 ≤ level p

/-- Behind the tokens of the first list a source is read as those of the second, and goes on with
`rest`. -/
def Reads (behind : Text) : List Token → List Token → Text → Prop
  | _, [], _ => True
  | a, tok :: b, rest =>
    tok.Starts (InUrl behind a) (texts b ++ rest).head? ∧ Reads behind (a ++ [tok]) b rest

/-- At the last of the tokens, and not before, as many brackets are closed as were opened. -/
def FirstReturn (ts : List Token) : Prop :=
  ts ≠ [] ∧ level ts = 0 ∧ ∀ p, p <+: ts → p ≠ [] → p ≠ ts → level p ≠ 0

@[simp] theorem texts_nil : texts [] = [] := rfl

@[simp] theorem texts_cons (tok : Token) (ts : List Token) :
    texts (tok :: ts) = tok.text ++ texts ts := rfl

@[simp] theorem texts_append (a b : List Token) : texts (a ++ b) = texts a ++ texts b :=
  List.flatMap_append

@[simp] theorem level_nil : level [] = 0 := rfl

@[simp] theorem level_cons (tok : Token) (ts : List Token) :
    level (tok :: ts) = tok.level + level ts := rfl

@[simp] theorem level_append : ∀ a b : List Token, level (a ++ b) = level a + level b
  | [], b => by simp
  | tok :: a, b => by
    rw [List.cons_append, level_cons, level_cons, level_append a b, Int.add_assoc]

theorem level_nonneg_of_prefix_nil {p : List Token} (hp : p <+: []) : 0 ≤ level p := by
  rw [List.prefix_nil.mp hp]
  exact Int.le_refl 0

/-! ## The argument of a `url` along the tokens -/

/-- The `url` argument in which the scanner is behind the tokens, by the depth of its bracket.
Of several it is the outermost one, which is closed last. -/
def UrlAt (behind : Text) (ts : List Token) : Option Nat → Prop
  | none => ¬InUrl behind ts
  | some depth => ∃ a b, ts = a ++ .opening '(' :: b ∧
      afterUrl ((texts a).reverse ++ behind) = true ∧ ¬InUrl behind a ∧
      (∀ p, p <+: b → 0 ≤ level p) ∧ level a + 1 = depth

variable {behind : Text} {ts : List Token} {url : Option Nat} {depth : Nat}

theorem UrlAt.isSome_iff (h : UrlAt behind ts url) : url.isSome = true ↔ InUrl behind ts := by
  cases url with
  | none => exact iff_of_false Bool.false_ne_true h
  | some d =>
    obtain ⟨a, b, hts, hurl, -, hopen, -⟩ := h
    exact iff_of_true rfl ⟨a, b, hts, hurl, hopen⟩

/-- Behind one more token the argument of a `url` is a new one, or one that the token leaves
open. -/
theorem inUrl_concat_iff {tok : Token} : InUrl behind (ts ++ [tok]) ↔
    (tok = .opening '(' ∧ afterUrl ((texts ts).reverse ++ behind) = true) ∨
      ∃ a b, ts = a ++ .opening '(' :: b ∧ afterUrl ((texts a).reverse ++ behind) = true ∧
        (∀ p, p <+: b → 0 ≤ level p) ∧ 0 ≤ level b + tok.level := by
  constructor
  · rintro ⟨a, b, hts, hurl, hopen⟩
    rcases List.eq_nil_or_concat' b with rfl | ⟨b, last, rfl⟩
    · obtain ⟨rfl, rfl⟩ : ts = a ∧ tok = .opening '(' := by simpa using hts
      exact Or.inl ⟨rfl, hurl⟩
    · obtain ⟨rfl, rfl⟩ : ts = a ++ .opening '(' :: b ∧ tok = last := by
        rw [← List.cons_append, ← List.append_assoc] at hts
        simpa using List.append_inj' hts rfl
      refine Or.inr ⟨a, b, rfl, hurl, fun p hp => hopen p (hp.trans (List.prefix_append b _)), ?_⟩
      simpa using hopen _ (List.prefix_refl _)
  · rintro (⟨rfl, hurl⟩ | ⟨a, b, rfl, hurl, hopen, hlast⟩)
    · exact ⟨ts, [], rfl, hurl, fun _ => level_nonneg_of_prefix_nil⟩
    · refine ⟨a, b ++ [tok], by simp, hurl, fun p hp => ?_⟩
      rcases List.prefix_concat_iff.mp hp with rfl | hp
      · simpa using hlast
      · exact hopen p hp

/-- An argument that is open stays the outermost one behind a token that does not close it. -/
theorem UrlAt.concat_some {tok : Token} (h : UrlAt behind ts (some depth))
    (hlevel : (depth : Int) ≤ level ts + tok.level) : UrlAt behind (ts ++ [tok]) (some depth) := by
  obtain ⟨a, b, rfl, hurl, hout, hopen, hdepth⟩ := h
  refine ⟨a, b ++ [tok], by simp, hurl, hout, fun p hp => ?_, hdepth⟩
  rcases List.prefix_concat_iff.mp hp with rfl | hp
  · simp only [level_append, level_cons, level_nil, Token.level] at hlevel ⊢
    omega
  · exact hopen p hp

/-- The depth behind the tokens is at least that of the argument. -/
theorem UrlAt.depth_le (h : UrlAt behind ts (some depth)) : (depth : Int) ≤ level ts := by
  obtain ⟨a, b, rfl, -, -, hopen, hdepth⟩ := h
  have hb := hopen b (List.prefix_refl b)
  simp only [level_append, level_cons, Token.level]
  omega

/-- A token that is no bracket leaves the argument as it is. -/
theorem UrlAt.concat (h : UrlAt behind ts url) {tok : Token} (htok : tok.level = 0) :
    UrlAt behind (ts ++ [tok]) url := by
  cases url with
  | some d => exact h.concat_some (by rw [htok, Int.add_zero]; exact h.depth_le)
  | none =>
    intro hin
    rcases inUrl_concat_iff.mp hin with ⟨rfl, -⟩ | ⟨a, b, hts, hurl, hopen, -⟩
    · exact absurd htok (by decide)
    · exact h ⟨a, b, hts, hurl, hopen⟩

/-- A bracket may open an argument, unless the scanner is in one already. -/
theorem UrlAt.concat_opening (h : UrlAt behind ts url) (hlevel : level ts = depth) (c : Char) :
    UrlAt behind (ts ++ [.opening c])
      (if c = '(' && url.isNone && afterUrl ((texts ts).reverse ++ behind) then some (depth + 1)
        else url) := by
  cases url with
  | some d =>
    rw [if_neg (by simp)]
    have hdepth := h.depth_le
    exact h.concat_some (by rw [Token.level]; omega)
  | none =>
    split
    next hopens =>
      obtain ⟨rfl, hurl⟩ : c = '(' ∧ afterUrl ((texts ts).reverse ++ behind) = true := by
        simpa using hopens
      exact ⟨ts, [], rfl, hurl, h, fun _ => level_nonneg_of_prefix_nil, by rw [hlevel]; rfl⟩
    next hopens =>
      intro hin
      rcases inUrl_concat_iff.mp hin with ⟨hc, hurl⟩ | ⟨a, b, hts, hurl, hopen, -⟩
      · exact hopens (by simp [Token.opening.inj hc, hurl])
      · exact h ⟨a, b, hts, hurl, hopen⟩

/-- The bracket that closes the argument is the one at its depth. -/
theorem UrlAt.concat_closing (h : UrlAt behind ts url) (hlevel : level ts = depth) (c : Char) :
    UrlAt behind (ts ++ [.closing c]) (if url = some depth then none else url) := by
  cases url with
  | none =>
    intro hin
    rcases inUrl_concat_iff.mp hin with ⟨hc, -⟩ | ⟨a, b, hts, hurl, hopen, -⟩
    · exact absurd hc (by simp)
    · exact h ⟨a, b, hts, hurl, hopen⟩
  | some d =>
    split
    next hd =>
      obtain rfl : d = depth := Option.some.inj hd
      obtain ⟨a, b, rfl, -, hout, hopen, hdepth⟩ := h
      have hb : level b = 0 := by
        simp only [level_append, level_cons, Token.level] at hlevel
        omega
      intro hin
      rcases inUrl_concat_iff.mp hin with ⟨hc, -⟩ | ⟨a', b', hts, hurl', hopen', hlast⟩
      · exact absurd hc (by simp)
      -- the other argument was opened in front of this one, is this one, or was opened in it
      rcases List.append_eq_append_iff.mp hts with ⟨v, rfl, hv⟩ | ⟨v, rfl, hv⟩
      · rcases List.append_eq_cons_iff.mp hv.symm with ⟨rfl, hb'⟩ | ⟨v, rfl, rfl⟩
        · obtain ⟨-, rfl⟩ := List.cons.inj hb'
          rw [hb, Token.level] at hlast
          omega
        · have hv := hopen v (List.prefix_append v _)
          simp only [level_append, level_cons, Token.level] at hb hlast
          omega
      · rcases List.append_eq_cons_iff.mp hv.symm with ⟨rfl, hb'⟩ | ⟨v, rfl, rfl⟩
        · obtain ⟨-, rfl⟩ := List.cons.inj hb'
          rw [hb, Token.level] at hlast
          omega
        · exact hout ⟨a', v, rfl, hurl', fun p hp => hopen' p (hp.trans (List.prefix_append v _))⟩
    next hd =>
      have hdepth := h.depth_le
      have hne : d ≠ depth := fun heq => hd (congrArg some heq)
      exact h.concat_some (by rw [Token.level]; omega)

end Brackets
end UtilityCss
