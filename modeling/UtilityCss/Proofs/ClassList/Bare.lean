import UtilityCss.ClassList.Listing
import UtilityCss.Proofs.ClassList.Layout

/-!
# Class lists without positions

A bare class list is what an author means: names, contents of brackets, marks of
importance and nesting, but no offsets.  It can be printed, and `erase` forgets the
offsets of a class list that was read.

What an author may not write is said of the printed text.  Names must be names, the
contents of brackets must be closed by the bracket that is meant to close them, and
the separator must not be found before its place.  The last condition is about the text
outside of brackets only: `print` takes what to put in the place of contents, so the same
function prints the text and the text with its brackets emptied.
-/

namespace UtilityCss
namespace ClassList
namespace Bare

/-! ## Bare class lists -/

/-- A modifier behind a bracketed value, `/50` or `/[50%]`. -/
inductive Modifier where
  | plain (text : Text)
  | boxed (content : Text)
  deriving DecidableEq, Repr

/-- A name with what belongs to it. -/
inductive Head where
  /-- `name`; the modifier is what follows the last slash of the name. -/
  | plain (name : Text) (modifier : Option Text)
  /-- `name/[content]`. -/
  | modified (name content : Text)
  /-- `lead-[value]`, perhaps with a modifier. -/
  | bracketed (lead value : Text) (modifier : Option Modifier)
  deriving DecidableEq, Repr

inductive Variant where
  | named (head : Head)
  | selector (content : Text)
  | group (members : List (List Variant))
  deriving Repr

inductive Expr where
  | group (members : List Expr) (important : Bool)
  | span (variant : Variant) (child : Option Expr)
  | utility (head : Head) (important : Bool)
  | property (content : Text) (important : Bool)
  deriving Repr

/-! ## Printing -/

section

variable (box : Text → Text)

/-- A pair of brackets. -/
def boxed (content : Text) : Text := '[' :: (box content ++ [']'])

def Modifier.print : Modifier → Text
  | plain text => '/' :: text
  | boxed content => '/' :: Bare.boxed box content

def Head.print : Head → Text
  | plain name _ => name
  | modified name content => name ++ '/' :: boxed box content
  | bracketed lead value none => lead ++ '-' :: boxed box value
  | bracketed lead value (some modifier) => lead ++ '-' :: (boxed box value ++ modifier.print box)

variable (sep : Separator)

mutual

/-- A variant without the separator behind it. -/
def Variant.print : Variant → Text
  | .named head => head.print box
  | .selector content => boxed box content
  | .group members => '(' :: (Text.joinWith [' '] (membersPrint members) ++ [')'])

/-- The links of a chain, each with its separator. -/
def chainPrint : List Variant → Text
  | [] => []
  | v :: rest => v.print ++ sep.text ++ chainPrint rest

def membersPrint : List (List Variant) → List Text
  | [] => []
  | links :: rest => chainPrint links :: membersPrint rest

end

mutual

def Expr.print : Expr → Text
  | .group members important =>
    bang important ++ '(' :: (Text.joinWith [' '] (exprsPrint members) ++ [')'])
  | .span variant none => variant.print box sep ++ sep.text
  | .span variant (some child) => variant.print box sep ++ sep.text ++ child.print
  | .utility head important => bang important ++ head.print box
  | .property content important => bang important ++ boxed box content

def exprsPrint : List Expr → List Text
  | [] => []
  | e :: rest => e.print :: exprsPrint rest

end

end

/-- The text of a class list: its expressions with single blanks between them. -/
def print (box : Text → Text) (sep : Separator) (es : List Expr) : Text :=
  Text.joinWith [' '] (exprsPrint box sep es)

/-- What is left of a class list when its brackets are emptied. -/
def hollow : Text → Text := fun _ => []

/-! ## What may be written -/

/-- The text is a run of name characters that no scanner takes for anything else. -/
def Word (t : Text) : Prop :=
  t ≠ [] ∧ ∀ ch ∈ t, isNameChar ch = true ∧ Brackets.isPlain ch = true

instance (t : Text) : Decidable (Word t) := inferInstanceAs (Decidable (_ ∧ _))

/-- Does the separator end with the letter that ends `url`?  Then it may stand in front of
a parenthesis in such a way that the parenthesis opens an address. -/
def endsUrl (sep : Separator) : Bool := sep.text.getLast?.any fun ch => ch.toLower = 'l'

/-- The bracket behind the text is the one that closes the bracket in front of it. -/
def Content (sep : Separator) (t : Text) : Prop :=
  Brackets.Sealed false t ∧ (endsUrl sep = true → Brackets.Sealed true t)

instance (sep : Separator) (t : Text) : Decidable (Content sep t) :=
  inferInstanceAs (Decidable (_ ∧ _))

/-- What follows the last slash of a name, unless that is nothing. -/
def modifierOf (name : Text) : Option Text :=
  match Text.cutAtLast? (· = '/') name with
  | some (_, []) => none
  | some (_, modifier) => some modifier
  | none => none

def Modifier.Fits (sep : Separator) : Modifier → Prop
  | plain text => Word text ∧ '/' ∉ text
  | boxed content => Content sep content

def Head.Fits (sep : Separator) : Head → Prop
  | plain name modifier => Word name ∧ modifier = modifierOf name
  | modified name content => Word name ∧ Content sep content
  | bracketed lead value modifier =>
    Word lead ∧ Content sep value ∧ ∀ m ∈ modifier, m.Fits sep

mutual

/-- A named variant has its first separator behind it. -/
def Variant.Fits (sep : Separator) : Variant → Prop
  | .named head => head.Fits sep ∧
      Text.cutAround? sep.text (head.print hollow ++ sep.text) = some (head.print hollow, [])
  | .selector content => Content sep content
  | .group members => MembersFit sep members

def ChainFits (sep : Separator) : List Variant → Prop
  | [] => True
  | v :: rest => v.Fits sep ∧ ChainFits sep rest

def MembersFit (sep : Separator) : List (List Variant) → Prop
  | [] => True
  | links :: rest => links ≠ [] ∧ ChainFits sep links ∧ MembersFit sep rest

end

mutual

/-- There is no separator in the name of a utility. -/
def Expr.Fits (sep : Separator) : Expr → Prop
  | .group members _ => ExprsFit sep members
  | .span variant none => variant.Fits sep
  | .span variant (some child) => variant.Fits sep ∧ child.Fits sep
  | .utility head _ => head.Fits sep ∧ Text.includes (head.print hollow) sep.text = false
  | .property content _ => Content sep content

def ExprsFit (sep : Separator) : List Expr → Prop
  | [] => True
  | e :: rest => e.Fits sep ∧ ExprsFit sep rest

end

end Bare

/-! ## Forgetting positions -/

def Modifier.erase (m : Modifier) : Bare.Modifier :=
  if m.wrapped then .boxed m.slice.text else .plain m.slice.text

def Head.erase : Head → Bare.Head
  | plain name none => .plain name.text none
  | plain name (some m) =>
    if m.wrapped then .modified (name.text.take (name.text.length - m.width)) m.slice.text
    else .plain name.text (some m.slice.text)
  | bracketed lead value modifier _ =>
    .bracketed lead.text value.text (modifier.map Modifier.erase)

mutual

def Variant.erase : Variant → Bare.Variant
  | .named _ head => .named head.erase
  | .selector _ inner => .selector inner.text
  | .group _ members => .group (membersErase members)

def chainErase : List Variant → List Bare.Variant
  | [] => []
  | v :: rest => v.erase :: chainErase rest

def membersErase : List (List Variant) → List (List Bare.Variant)
  | [] => []
  | links :: rest => chainErase links :: membersErase rest

end

mutual

def Expr.erase : Expr → Bare.Expr
  | .group _ members important _ => .group (exprsErase members) important
  | .span _ variant none => .span variant.erase none
  | .span _ variant (some child) => .span variant.erase (some child.erase)
  | .utility _ head important => .utility head.erase important
  | .property _ value important _ => .property value.text important

def exprsErase : List Expr → List Bare.Expr
  | [] => []
  | e :: rest => e.erase :: exprsErase rest

end

/-! ## Closed class lists -/

mutual

/-- Every bracket of the variant and of its links is closed. -/
def Variant.AllClosed : Variant → Prop
  | .named _ head => head.closed = true
  | .selector .. => True
  | .group _ members => MembersClosed members

def ChainClosed : List Variant → Prop
  | [] => True
  | v :: rest => v.AllClosed ∧ ChainClosed rest

def MembersClosed : List (List Variant) → Prop
  | [] => True
  | links :: rest => ChainClosed links ∧ MembersClosed rest

end

mutual

/-- Every bracket of the expression and of what it consists of is closed. -/
def Expr.AllClosed : Expr → Prop
  | .group _ members _ closed => closed = true ∧ ExprsClosed members
  | .span _ variant none => variant.AllClosed
  | .span _ variant (some child) => variant.AllClosed ∧ child.AllClosed
  | .utility _ head _ => head.closed = true
  | .property _ _ _ closed => closed = true

def ExprsClosed : List Expr → Prop
  | [] => True
  | e :: rest => e.AllClosed ∧ ExprsClosed rest

end

mutual

theorem Variant.AllClosed.listing {first : Nat} : ∀ {v : Variant}, v.AllClosed →
    ∀ n ∈ v.listing first, n.closed = true
  | .named .., h, n, hn => by
    rw [Variant.listing, List.mem_singleton] at hn
    rw [hn]
    exact h
  | .selector .., _, n, hn => by
    rw [Variant.listing, List.mem_singleton] at hn
    rw [hn]
  | .group _ members, h, n, hn => by
    rw [Variant.listing] at hn
    rcases List.mem_append.mp hn with hn | hn
    · exact MembersClosed.listing h n hn
    · rw [List.mem_singleton.mp hn]

theorem ChainClosed.listing {first : Nat} : ∀ {links : List Variant}, ChainClosed links →
    ∀ n ∈ (chainListing first links).1, n.closed = true
  | [], _, n, hn => absurd hn (List.not_mem_nil)
  | v :: rest, h, n, hn => by
    rcases List.mem_append.mp hn with hn | hn
    · exact Variant.AllClosed.listing h.1 n hn
    · exact ChainClosed.listing h.2 n hn

theorem MembersClosed.listing {first : Nat} : ∀ {members : List (List Variant)},
    MembersClosed members → ∀ n ∈ (membersListing first members).1, n.closed = true
  | [], _, n, hn => absurd hn (List.not_mem_nil)
  | links :: rest, h, n, hn => by
    rcases List.mem_append.mp hn with hn | hn
    · exact ChainClosed.listing h.1 n hn
    · exact MembersClosed.listing h.2 n hn

end

mutual

theorem Expr.AllClosed.listing {first : Nat} : ∀ {e : Expr}, e.AllClosed →
    ∀ n ∈ e.listing first, n.closed = true
  | .group .., h, n, hn => by
    rw [Expr.listing] at hn
    rcases List.mem_append.mp hn with hn | hn
    · exact ExprsClosed.listing h.2 n hn
    · rw [List.mem_singleton.mp hn]
      exact h.1
  | .span _ variant none, h, n, hn => by
    rw [Expr.listing] at hn
    rcases List.mem_append.mp hn with hn | hn
    · exact Variant.AllClosed.listing h n hn
    · rw [List.mem_singleton.mp hn]
  | .span _ variant (some child), h, n, hn => by
    rw [Expr.listing] at hn
    rcases List.mem_append.mp hn with hn | hn
    · rcases List.mem_append.mp hn with hn | hn
      · exact Variant.AllClosed.listing h.1 n hn
      · exact Expr.AllClosed.listing h.2 n hn
    · rw [List.mem_singleton.mp hn]
  | .utility .., h, n, hn => by
    rw [Expr.listing, List.mem_singleton] at hn
    rw [hn]
    exact h
  | .property .., h, n, hn => by
    rw [Expr.listing, List.mem_singleton] at hn
    rw [hn]
    exact h

theorem ExprsClosed.listing {first : Nat} : ∀ {es : List Expr}, ExprsClosed es →
    ∀ n ∈ (exprsListing first es).1, n.closed = true
  | [], _, n, hn => absurd hn (List.not_mem_nil)
  | e :: rest, h, n, hn => by
    rcases List.mem_append.mp hn with hn | hn
    · exact Expr.AllClosed.listing h.1 n hn
    · exact ExprsClosed.listing h.2 n hn

end

/-- Of a closed class list every part is closed. -/
theorem Program.closed_of_mem_listing {p : Program} (h : ExprsClosed p.exprs) {n : Node}
    (hn : n ∈ p.listing) : n.closed = true := by
  rcases List.mem_append.mp hn with hn | hn
  · exact ExprsClosed.listing h n hn
  · rw [List.mem_singleton.mp hn]

end ClassList
end UtilityCss
