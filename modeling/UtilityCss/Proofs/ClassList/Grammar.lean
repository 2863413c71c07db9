import UtilityCss.ClassList.Parser
import UtilityCss.Proofs.Separator
import UtilityCss.Proofs.Source

/-!
# The grammar of class lists

What the reader does, without its bound on the recursion.  A derivation of
`Reads sep inGroup c e d` says that from the place `c` the expression `e` is read
and that reading stops at `d`; the other relations say the same of variants and of
sequences.  There is one rule for every way in which the reader can go on, with
the lookahead that makes it go that way, so the relations are as deterministic as the
reader is.

A variant in front of an expression and a link of a chain are read alike.  They
differ only in how much of the source has to remain behind them: a link must not reach
past the end of its group, and a variant must leave room for its separator.
-/

namespace UtilityCss
namespace ClassList

/-! ## Variants -/

/-- There is no variant at the place that leaves `stop` characters of the source. -/
structure Unlinked (sep : Separator) (stop : Nat) (c : Cursor) : Prop where
  selector : c.isAt '[' = true → (c.advance (Brackets.closing c).length).rest.length < stop
  group : c.isAt '(' = true → (Brackets.closing c).closed = true →
    (c.advance (Brackets.closing c).length).rest.length < stop
  named : ∀ head d, Head.read? sep c = some (head, d) → d.rest.length < stop

/-- The chain ends here: its group does, a blank comes, or there is no variant. -/
def ChainEnds (sep : Separator) (stop : Nat) (c : Cursor) : Prop :=
  c.rest.length ≤ stop ∨ c.isAtGap = true ∨ Unlinked sep stop c

/-- The number of characters up to the next blank or the end of the group. -/
def roomLength (stop : Nat) (c : Cursor) : Nat :=
  1 + (((c.rest.take (c.rest.length - stop)).drop 1).takeWhile fun ch => !Text.isBlank ch).length

mutual

/-- Reads one variant and leaves at least `stop` characters. -/
inductive ReadsVariant (sep : Separator) : Nat → Cursor → Variant → Cursor → Prop where
  | named {stop : Nat} {c d : Cursor} {head : Head} :
    Head.read? sep c = some (head, d) → stop ≤ d.rest.length →
    ReadsVariant sep stop c (.named (c.upTo d) head) d
  | selector {stop : Nat} {c d : Cursor} :
    c.isAt '[' = true → c.advance (Brackets.closing c).length = d → stop ≤ d.rest.length →
    ReadsVariant sep stop c
      (.selector (c.ahead (Brackets.closing c).length) (Brackets.inner c (Brackets.closing c))) d
  | group {stop : Nat} {c d : Cursor} {members : List (List Variant)} :
    c.isAt '(' = true → (Brackets.closing c).closed = true →
    c.advance (Brackets.closing c).length = d → stop ≤ d.rest.length →
    ReadsChains sep (d.rest.length + 1) (c.advance 1) members →
    ReadsVariant sep stop c (.group (c.ahead (Brackets.closing c).length) members) d

/-- Reads the links of a chain. -/
inductive ReadsChain (sep : Separator) : Nat → Cursor → List Variant → Cursor → Prop where
  | done {stop : Nat} {c : Cursor} : ChainEnds sep stop c → ReadsChain sep stop c [] c
  | last {stop : Nat} {c d : Cursor} {v : Variant} :
    stop < c.rest.length → c.isAtGap = false → ReadsVariant sep stop c v d →
    sep.startsIn d.rest = false → ReadsChain sep stop c [v] d
  | link {stop : Nat} {c d e : Cursor} {v : Variant} {links : List Variant} :
    stop < c.rest.length → c.isAtGap = false → ReadsVariant sep stop c v d →
    sep.startsIn d.rest = true → ReadsChain sep stop (d.advance sep.text.length) links e →
    ReadsChain sep stop c (v :: links) e

/-- Reads the chains of a group. -/
inductive ReadsChains (sep : Separator) : Nat → Cursor → List (List Variant) → Prop where
  | done {stop : Nat} {c : Cursor} :
    c.skipBlanks.rest.length ≤ stop → ReadsChains sep stop c []
  | stray {stop : Nat} {c : Cursor} {members : List (List Variant)} :
    stop < c.skipBlanks.rest.length → Unlinked sep stop c.skipBlanks →
    ReadsChains sep stop (c.skipBlanks.advance (roomLength stop c.skipBlanks)) members →
    ReadsChains sep stop c
      ([.named (c.skipBlanks.ahead (roomLength stop c.skipBlanks))
        (.plain (c.skipBlanks.ahead (roomLength stop c.skipBlanks)) none)] :: members)
  | chain {stop : Nat} {c d : Cursor} {v : Variant} {links : List Variant}
      {members : List (List Variant)} :
    stop < c.skipBlanks.rest.length → ReadsChain sep stop c.skipBlanks (v :: links) d →
    ReadsChains sep stop d members → ReadsChains sep stop c ((v :: links) :: members)

end

/-! ## Expressions -/

/-- From the one place a mark of importance, if there is one, leads to the other. -/
def Marks (important : Bool) (c d : Cursor) : Prop :=
  if important then c.isAt '!' = true ∧ c.advance 1 = d else c = d

/-- A bracket is a variant when the separator follows it. -/
def isVariant (sep : Separator) (c : Cursor) : Bool :=
  (Brackets.closing c).closed && sep.startsIn (c.advance (Brackets.closing c).length).rest

/-- Is this the end of the source or of the enclosing group? -/
def AtEnd (inGroup : Bool) (c : Cursor) : Prop :=
  c.rest = [] ∨ inGroup = true ∧ c.isAt ')' = true

/-- Neither a name nor a bracket stands here, with or without a mark of importance. -/
def AtStray (sep : Separator) (c : Cursor) : Prop :=
  ∀ important d, Marks important c d →
    Head.read? sep d = none ∧ d.isAt '(' = false ∧ d.isAt '[' = false

mutual

/-- Reads one expression. -/
inductive Reads (sep : Separator) : Bool → Cursor → Expr → Cursor → Prop where
  | stray {inGroup : Bool} {c : Cursor} :
    ¬ AtEnd inGroup c → AtStray sep c →
    Reads sep inGroup c (stray inGroup c).1 (stray inGroup c).2
  | utility {inGroup important : Bool} {c start d : Cursor} {head : Head} :
    Marks important c start → Head.read? sep start = some (head, d) →
    (important || !sep.startsIn d.rest) = true →
    Reads sep inGroup c
      (.utility (c.upTo (takeBang d).2) head ((takeBang d).1 || important)) (takeBang d).2
  | property {inGroup important : Bool} {c start d : Cursor} :
    Marks important c start → start.isAt '[' = true →
    (important || !isVariant sep start) = true →
    start.advance (Brackets.closing start).length = d →
    (Brackets.closing start).closed = true →
    Reads sep inGroup c
      (.property (c.upTo (takeBang d).2) (Brackets.inner start (Brackets.closing start))
        ((takeBang d).1 || important) true) (takeBang d).2
  | openProperty {inGroup important : Bool} {c start d : Cursor} :
    Marks important c start → start.isAt '[' = true →
    start.advance (Brackets.closing start).length = d →
    (Brackets.closing start).closed = false →
    Reads sep inGroup c
      (.property (c.upTo d) (Brackets.inner start (Brackets.closing start)) important false) d
  | group {inGroup important : Bool} {c start d e : Cursor} {members : List Expr} :
    Marks important c start → start.isAt '(' = true →
    (important || !isVariant sep start) = true →
    ReadsAll sep true (start.advance 1) members d →
    d.isAt ')' = true → d.advance 1 = e →
    Reads sep inGroup c
      (.group (c.upTo (takeBang e).2) members ((takeBang e).1 || important) true) (takeBang e).2
  | openGroup {inGroup important : Bool} {c start d : Cursor} {members : List Expr} :
    Marks important c start → start.isAt '(' = true →
    (important || !isVariant sep start) = true →
    ReadsAll sep true (start.advance 1) members d → d.isAt ')' = false →
    Reads sep inGroup c (.group (c.upTo d) members important false) d
  | bare {inGroup : Bool} {c d e : Cursor} {v : Variant} :
    ReadsVariant sep 1 c v d → sep.startsIn d.rest = true → d.advance sep.text.length = e →
    (e.isAtGap || e.isAt ')') = true →
    Reads sep inGroup c (.span (c.upTo e) v none) e
  | span {inGroup : Bool} {c d e f : Cursor} {v : Variant} {child : Expr} :
    ReadsVariant sep 1 c v d → sep.startsIn d.rest = true → d.advance sep.text.length = e →
    (e.isAtGap || e.isAt ')') = false → Reads sep inGroup e child f →
    Reads sep inGroup c (.span (c.upTo f) v (some child)) f

/-- Reads expressions up to the end of the source or of the enclosing group. -/
inductive ReadsAll (sep : Separator) : Bool → Cursor → List Expr → Cursor → Prop where
  | done {inGroup : Bool} {c : Cursor} :
    AtEnd inGroup c.skipBlanks → ReadsAll sep inGroup c [] c.skipBlanks
  | next {inGroup : Bool} {c d f : Cursor} {e : Expr} {rest : List Expr} :
    Reads sep inGroup c.skipBlanks e d → ReadsAll sep inGroup d rest f →
    ReadsAll sep inGroup c (e :: rest) f

end

end ClassList
end UtilityCss
