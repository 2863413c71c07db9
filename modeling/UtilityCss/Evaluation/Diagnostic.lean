import UtilityCss.ClassList.Tree

/-!
# Diagnostics

Reading a class list never fails and evaluating one never stops: what cannot be
evaluated is left out and noted.  A report is a value together with the notes
taken on the way to it, in order.

## Torn names

One condition is kept apart.  A modifier is removed from the end of a name by its
length in bytes, brackets counted whether or not the closing one is there.  When
that cuts through a character the name cannot be read at all; the report says so
by `torn`, and whoever asked gets no other answer.
-/

namespace UtilityCss

/-- What is wrong with a part of a class list. -/
inductive DiagnosticKind where
  /-- A bracket, a group or a modifier is not closed. -/
  | parseIncomplete
  /-- No utility matches. -/
  | utilityNotFound
  /-- No variant matches. -/
  | variantNotFound
  /-- More than one utility or variant matches. -/
  | ambiguousMatch
  deriving DecidableEq, Repr

namespace DiagnosticKind

/-- What the diagnostic says. -/
def message : DiagnosticKind → Text
  | parseIncomplete => "unterminated input"
  | utilityNotFound => "unknown utility"
  | variantNotFound => "unknown variant"
  | ambiguousMatch => "ambiguous utility"

end DiagnosticKind

/-- A note about a part of a class list. -/
structure Diagnostic where
  kind : DiagnosticKind
  slice : Slice
  deriving DecidableEq, Repr

namespace Diagnostic

/-- The note as a text. -/
def message (d : Diagnostic) : Text :=
  d.kind.message ++ ' ' :: '\x60' :: d.slice.text ++ '\x60' :: " at ".toList ++ d.slice.span.text

end Diagnostic

/-- A value with the notes taken on the way to it. -/
structure Report (α : Type) where
  value : α
  diagnostics : List Diagnostic := []
  torn : Bool := false

namespace Report

variable {α β : Type}

/-- Goes on with a value and takes further notes. -/
def bind (r : Report α) (f : α → Report β) : Report β :=
  let s := f r.value
  ⟨s.value, r.diagnostics ++ s.diagnostics, r.torn || s.torn⟩

instance : Monad Report where
  pure a := ⟨a, [], false⟩
  bind := bind

@[simp] theorem value_pure (a : α) : (pure a : Report α).value = a := rfl

@[simp] theorem diagnostics_pure (a : α) : (pure a : Report α).diagnostics = [] := rfl

@[simp] theorem torn_pure (a : α) : (pure a : Report α).torn = false := rfl

@[simp] theorem value_bind (r : Report α) (f : α → Report β) :
    (r >>= f).value = (f r.value).value := rfl

@[simp] theorem diagnostics_bind (r : Report α) (f : α → Report β) :
    (r >>= f).diagnostics = r.diagnostics ++ (f r.value).diagnostics := rfl

@[simp] theorem torn_bind (r : Report α) (f : α → Report β) :
    (r >>= f).torn = (r.torn || (f r.value).torn) := rfl

/-- Takes a note. -/
def note (kind : DiagnosticKind) (slice : Slice) : Report Unit := ⟨(), [⟨kind, slice⟩], false⟩

/-- Takes a note if the condition holds. -/
def noteIf (condition : Bool) (kind : DiagnosticKind) (slice : Slice) : Report Unit :=
  if condition then note kind slice else pure ()

/-- Reports a torn name. -/
def tear : Report Unit := ⟨(), [], true⟩

/-- The value without the notes, torn or not as before. -/
def silent (r : Report α) : Report α := { r with diagnostics := [] }

end Report

/-- Why a name was not resolved. -/
inductive Failure where
  | notFound
  | ambiguous
  /-- The modifier cannot be removed from the name. -/
  | torn
  deriving DecidableEq, Repr

/-- Reports a failure, the name counting as one of what is not found. -/
def Failure.report (missing : DiagnosticKind) (slice : Slice) : Failure → Report Unit
  | notFound => .note missing slice
  | ambiguous => .note .ambiguousMatch slice
  | torn => .tear

end UtilityCss
