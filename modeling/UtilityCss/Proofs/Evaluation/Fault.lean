import Mathlib.Data.Option.Basic
import UtilityCss.Proofs.Evaluation.Chain
import UtilityCss.Proofs.Evaluation.Precedence

/-!
# What evaluation notes and leaves out

Every note stands for a fault of one part of the class list, and every fault is noted: a
part that is not closed, a utility, a property or a variant that does not resolve.
The faults are read off the parts one by one, whatever is around them.  Evaluation meets
a group before its members and a listing has it after them, so the notes are the faults
of the listing up to order; they come in the order in which the parts begin.

The styles are those of the class list without what is at fault.  `prune` deletes
utilities and properties that do not resolve, and a variant that does not resolve
together with everything it is applied to.
-/

namespace UtilityCss

open ClassList

/-! ## Faults of parts -/

/-- The note on a name that was not resolved; none where the name is torn. -/
def Failure.note? (missing : DiagnosticKind) (slice : Slice) : Failure → Option Diagnostic
  | notFound => some ⟨missing, slice⟩
  | ambiguous => some ⟨.ambiguousMatch, slice⟩
  | torn => none

/-- The notes on what came of resolving a name. -/
def notesOn {α : Type} (missing : DiagnosticKind) (slice : Slice) :
    Except Failure α → List Diagnostic
  | .ok _ => []
  | .error failure => (failure.note? missing slice).toList

/-- The note on a part that is not closed. -/
def incomplete (closed : Bool) (slice : Slice) : List Diagnostic :=
  if closed then [] else [⟨.parseIncomplete, slice⟩]

theorem Report.diagnostics_incomplete (closed : Bool) (slice : Slice) :
    (Report.noteIf (!closed) .parseIncomplete slice).diagnostics = incomplete closed slice := by
  cases closed <;> rfl

theorem Report.torn_noteIf (condition : Bool) (kind : DiagnosticKind) (slice : Slice) :
    (Report.noteIf condition kind slice).torn = false := by
  cases condition <;> rfl

theorem Failure.diagnostics_report (missing : DiagnosticKind) (slice : Slice) (failure : Failure) :
    (failure.report missing slice).diagnostics = (failure.note? missing slice).toList := by
  cases failure <;> rfl

theorem Failure.torn_report (missing : DiagnosticKind) (slice : Slice) (failure : Failure) :
    (failure.report missing slice).torn = decide (failure = .torn) := by
  cases failure <;> rfl

namespace Environment

variable (env : Environment)

/-- What is wrong with a part by itself. -/
def faults (n : Node) : List Diagnostic :=
  match n.shape with
  | .group .. => incomplete n.closed n.source
  | .utility head _ =>
    incomplete n.closed n.source ++ notesOn .utilityNotFound n.source (env.utilityOf head)
  | .property value _ =>
    incomplete n.closed n.source ++
      if (Bracketed.declaration? value.text).isSome then [] else [⟨.utilityNotFound, n.source⟩]
  | .variant head => notesOn .variantNotFound n.source (env.singleVariant (.named n.source head))
  | .selector value =>
    notesOn .variantNotFound n.source (env.singleVariant (.selector n.source value))
  | _ => []

/-- Is the part a utility with a torn name, or one whose style applies a class list with a torn
name in it? -/
def tears (apply : Text → Report StyleTree) (n : Node) : Bool :=
  match n.shape with
  | .utility head _ =>
    match env.utilityOf head with
    | .ok found => (env.styleOf apply found).torn
    | .error failure => decide (failure = .torn)
  | _ => false

end Environment

/-! ## Notes inside of a text -/

/-- The notes are on parts of the text `t` at the offset `start`, in the order in which the parts
begin. -/
structure Noted (start : Nat) (t : Text) (notes : List Diagnostic) : Prop where
  partOf : ∀ d ∈ notes, d.slice.PartOf ⟨start, t⟩
  ordered : notes.Pairwise fun d d' => d.slice.start ≤ d'.slice.start

namespace Noted

variable {start : Nat} {t u : Text} {notes more : List Diagnostic}

theorem nil : Noted start t [] := ⟨by simp, List.Pairwise.nil⟩

/-- Notes on the whole text come first. -/
theorem own (hown : ∀ d ∈ notes, d.slice = ⟨start, t⟩) (h : Noted start t more) :
    Noted start t (notes ++ more) where
  partOf := by
    intro d hd
    rcases List.mem_append.mp hd with hd | hd
    · rw [hown d hd]
      exact Slice.partOf_refl _
    · exact h.partOf d hd
  ordered := by
    refine List.pairwise_append.mpr ⟨?_, h.ordered, ?_⟩
    · refine List.pairwise_of_forall_mem_list fun d hd d' hd' => Nat.le_of_eq ?_
      rw [hown d hd, hown d' hd']
    · intro d hd d' hd'
      rw [hown d hd]
      exact (h.partOf d' hd').le_start

theorem append (h : Noted start t notes) (h' : Noted (start + Text.bytes t) u more) :
    Noted start (t ++ u) (notes ++ more) where
  partOf := by
    intro d hd
    rcases List.mem_append.mp hd with hd | hd
    · exact (h.partOf d hd).trans ⟨[], u, rfl, rfl⟩
    · exact (h'.partOf d hd).trans ⟨t, [], by simp, rfl⟩
  ordered := by
    refine List.pairwise_append.mpr ⟨h.ordered, h'.ordered, ?_⟩
    intro d hd d' hd'
    obtain ⟨a, b, ht, hstart⟩ := h.partOf d hd
    have hle := (h'.partOf d' hd').le_start
    simp only at ht hstart hle
    rw [ht, Text.bytes_append, Text.bytes_append] at hle
    omega

theorem prepend (h : Noted (start + Text.bytes t) u notes) : Noted start (t ++ u) notes :=
  Noted.append nil h

theorem extend (h : Noted start t notes) : Noted start (t ++ u) notes := by
  rw [← List.append_nil notes]
  exact h.append nil

end Noted

theorem slice_of_mem_incomplete {closed : Bool} {slice : Slice} {d : Diagnostic}
    (h : d ∈ incomplete closed slice) : d.slice = slice := by
  cases closed
  · rw [List.mem_singleton.mp h]
  · exact absurd h List.not_mem_nil

theorem slice_of_mem_notesOn {α : Type} {missing : DiagnosticKind} {slice : Slice}
    {result : Except Failure α} {d : Diagnostic} (h : d ∈ notesOn missing slice result) :
    d.slice = slice := by
  cases result with
  | ok => exact absurd h List.not_mem_nil
  | error failure => cases failure <;> simp_all [notesOn, Failure.note?]

namespace Environment

variable {env : Environment}

/-! ## Variants -/

theorem diagnostics_resolved? {v : ClassList.Variant} (hclosed : v.closed = true) :
    (env.resolved? v).diagnostics = notesOn .variantNotFound v.source (env.singleVariant v) := by
  unfold resolved?
  rw [hclosed, Bool.not_true, Report.noteIf_false, pure_bind]
  cases env.singleVariant v with
  | ok => rfl
  | error failure =>
    rw [Report.diagnostics_bind, Failure.diagnostics_report]
    exact List.append_nil _

section

variable {sep : Separator}

mutual

/-- On a variant the faults of its parts are noted, in the order of the listing. -/
theorem diagnostics_wrapper? {start : Nat} {t : Text} :
    ∀ {v : ClassList.Variant} (first : Nat), v.Laid sep start t →
      (env.wrapper? v).diagnostics = (v.listing first).flatMap env.faults
  | .named source head, first, ⟨_, hclosed, _⟩ => by
    have hclosed' : (Variant.named source head).closed = true := hclosed
    rw [wrapper?, diagnostics_resolved? hclosed', Variant.listing, List.flatMap_singleton]
    rfl
  | .selector source inner, first, _ => by
    rw [wrapper?, diagnostics_resolved? rfl, Variant.listing, List.flatMap_singleton]
    rfl
  | .group _ members, first, ⟨_, _, _, _, _, hmembers⟩ => by
    rw [wrapper?, Report.diagnostics_bind, diagnostics_membersWrappers? first hmembers,
      Variant.listing, List.flatMap_append, List.flatMap_singleton]
    rfl

theorem diagnostics_membersWrappers? {start : Nat} {t : Text} :
    ∀ {members : List (List ClassList.Variant)} (first : Nat), MembersLaid sep start t members →
      (env.membersWrappers? members).diagnostics =
        (membersListing first members).1.flatMap env.faults
  | [], _, _ => rfl
  | links :: rest, first, ⟨_, _, _, _, _, _, hlinks, hrest⟩ => by
    rw [membersWrappers?, Report.diagnostics_bind, Report.diagnostics_bind,
      Report.diagnostics_pure, List.append_nil, diagnostics_chainWrapper? first hlinks,
      diagnostics_membersWrappers? _ hrest, ← List.flatMap_append]
    rfl

theorem diagnostics_chainWrapper? {start : Nat} {t : Text} :
    ∀ {links : List ClassList.Variant} (first : Nat), ChainLaid sep start t links →
      (env.chainWrapper? links).diagnostics = (chainListing first links).1.flatMap env.faults
  | [], _, _ => rfl
  | v :: rest, first, ⟨_, _, _, _, hv, _, hrest⟩ => by
    rw [chainWrapper?, Report.diagnostics_bind, Report.diagnostics_bind,
      Report.diagnostics_pure, List.append_nil, diagnostics_wrapper? first hv,
      diagnostics_chainWrapper? _ hrest, ← List.flatMap_append]
    rfl

end

mutual

theorem noted_wrapper? {start : Nat} {t : Text} : ∀ {v : ClassList.Variant}, v.Laid sep start t →
    Noted start t (env.wrapper? v).diagnostics
  | .named source head, ⟨hsource, hclosed, _⟩ => by
    have hclosed' : (Variant.named source head).closed = true := hclosed
    rw [wrapper?, diagnostics_resolved? hclosed', ← List.append_nil (notesOn ..)]
    exact Noted.own (fun d hd => (slice_of_mem_notesOn hd).trans hsource) .nil
  | .selector source inner, ⟨hsource, _⟩ => by
    rw [wrapper?, diagnostics_resolved? rfl, ← List.append_nil (notesOn ..)]
    exact Noted.own (fun d hd => (slice_of_mem_notesOn hd).trans hsource) .nil
  | .group _ members, ⟨_, body, close, _, ht, hmembers⟩ => by
    rw [wrapper?, Report.diagnostics_bind, Report.diagnostics_pure, List.append_nil, ht]
    exact Noted.prepend (t := ['(']) (noted_membersWrappers? hmembers).extend

theorem noted_membersWrappers? {start : Nat} {t : Text} :
    ∀ {members : List (List ClassList.Variant)}, MembersLaid sep start t members →
      Noted start t (env.membersWrappers? members).diagnostics
  | [], _ => .nil
  | links :: rest, ⟨b, tl, u, ht, _, _, hlinks, hrest⟩ => by
    rw [membersWrappers?, Report.diagnostics_bind, Report.diagnostics_bind,
      Report.diagnostics_pure, List.append_nil, ht]
    exact (noted_chainWrapper? hlinks).prepend.append (noted_membersWrappers? hrest)

theorem noted_chainWrapper? {start : Nat} {t : Text} :
    ∀ {links : List ClassList.Variant}, ChainLaid sep start t links →
      Noted start t (env.chainWrapper? links).diagnostics
  | [], _ => .nil
  | v :: rest, ⟨tv, tail, u, ht, hv, _, hrest⟩ => by
    rw [chainWrapper?, Report.diagnostics_bind, Report.diagnostics_bind,
      Report.diagnostics_pure, List.append_nil, ht]
    exact (noted_wrapper? hv).extend.append (noted_chainWrapper? hrest)

end

/-! ## Expressions -/

section

variable {mode : Mode} {apply : Text → Report StyleTree}

/-- A variant that resolves wraps what is evaluated inside of it; one that does not leaves
nothing of it. -/
theorem value_expr_span (source : Slice) (v : ClassList.Variant) (child : ClassList.Expr)
    (important : Bool) (out : Evaluated) :
    (env.expr mode apply important (.span source v (some child)) out).value =
      match (env.wrapper? v).value with
      | some w => out.merge ((env.expr mode apply important child {}).value.wrapped w)
      | none => out := by
  rw [expr, Report.value_bind, Report.value_bind]
  cases (env.wrapper? v).value <;> rfl

theorem diagnostics_expr_span (source : Slice) (v : ClassList.Variant) (child : ClassList.Expr)
    (important : Bool) (out : Evaluated) :
    (env.expr mode apply important (.span source v (some child)) out).diagnostics =
      (env.wrapper? v).diagnostics ++ (env.expr mode apply important child {}).diagnostics := by
  rw [expr, Report.diagnostics_bind, Report.diagnostics_bind]
  cases (env.wrapper? v).value <;> simp

theorem torn_expr_span (source : Slice) (v : ClassList.Variant) (child : ClassList.Expr)
    (important : Bool) (out : Evaluated) :
    (env.expr mode apply important (.span source v (some child)) out).torn =
      ((env.wrapper? v).torn || (env.expr mode apply important child {}).torn) := by
  rw [expr, Report.torn_bind, Report.torn_bind]
  cases (env.wrapper? v).value <;> simp

/-- The notes on a utility. -/
theorem diagnostics_expr_utility (happly : ∀ t, (apply t).diagnostics = []) (source : Slice)
    (head : Head) (marked important : Bool) (out : Evaluated) :
    (env.expr mode apply important (.utility source head marked) out).diagnostics =
      incomplete head.closed source ++ notesOn .utilityNotFound source (env.utilityOf head) := by
  rw [expr, Report.diagnostics_bind, Report.diagnostics_incomplete]
  congr 1
  cases env.utilityOf head with
  | ok found =>
    rw [Report.diagnostics_bind, diagnostics_styleOf happly]
    rfl
  | error failure =>
    rw [Report.diagnostics_bind, Failure.diagnostics_report]
    exact List.append_nil _

/-- The notes on a property. -/
theorem diagnostics_expr_property (source value : Slice) (marked closed important : Bool)
    (out : Evaluated) :
    (env.expr mode apply important (.property source value marked closed) out).diagnostics =
      incomplete closed source ++
        if (Bracketed.declaration? value.text).isSome then []
        else [⟨.utilityNotFound, source⟩] := by
  rw [expr, Report.diagnostics_bind, Report.diagnostics_incomplete]
  congr 1
  cases Bracketed.declaration? value.text <;> rfl

mutual

/-- On an expression the faults of its parts are noted. -/
theorem perm_expr (happly : ∀ t, (apply t).diagnostics = []) {start : Nat} {t after : Text} :
    ∀ {e : ClassList.Expr} (first : Nat) (important : Bool) (out : Evaluated),
      e.Laid sep start t after → (env.expr mode apply important e out).diagnostics.Perm
        ((e.listing first).flatMap env.faults)
  | .group source members marked closed, first, important, out,
      ⟨_, _, _, _, _, _, _, hmembers⟩ => by
    have ih := perm_exprs happly first (important || marked) out hmembers
    rw [expr, Report.diagnostics_bind, Report.diagnostics_incomplete, Expr.listing,
      List.flatMap_append, List.flatMap_singleton]
    exact (ih.append_left _).trans List.perm_append_comm
  | .span source variant none, first, important, out, ⟨_, _, _, hv⟩ => by
    rw [expr, Report.diagnostics_bind, Report.diagnostics_pure, List.append_nil,
      diagnostics_wrapper? first hv, Expr.listing, List.flatMap_append, List.flatMap_singleton]
    exact .of_eq (List.append_nil _).symm
  | .span source variant (some child), first, important, out, ⟨_, _, _, _, hv, hchild⟩ => by
    have ih := perm_expr happly (first + (variant.listing first).length) important {} hchild
    rw [diagnostics_expr_span, diagnostics_wrapper? first hv, Expr.listing, List.flatMap_append,
      List.flatMap_append, List.flatMap_singleton]
    exact (ih.append_left _).trans (.of_eq (List.append_nil _).symm)
  | .utility source head marked, first, important, out, _ => by
    rw [diagnostics_expr_utility happly, Expr.listing, List.flatMap_singleton]
    exact .refl _
  | .property source value marked closed, first, important, out, _ => by
    rw [diagnostics_expr_property, Expr.listing, List.flatMap_singleton]
    exact .refl _

theorem perm_exprs (happly : ∀ t, (apply t).diagnostics = []) {start : Nat} {t after : Text} :
    ∀ {es : List ClassList.Expr} (first : Nat) (important : Bool) (out : Evaluated),
      ExprsLaid sep start t after es → (env.exprs mode apply important es out).diagnostics.Perm
        ((exprsListing first es).1.flatMap env.faults)
  | [], _, _, _, _ => .refl _
  | e :: rest, first, important, out, ⟨_, _, _, _, _, he, hrest⟩ => by
    rw [exprs, Report.diagnostics_bind]
    show List.Perm _ ((e.listing first ++
      (exprsListing (first + (e.listing first).length) rest).1).flatMap env.faults)
    rw [List.flatMap_append]
    exact (perm_expr happly first important out he).append (perm_exprs happly _ important _ hrest)

end

mutual

/-- The notes come in the order of the source. -/
theorem noted_expr (happly : ∀ t, (apply t).diagnostics = []) {start : Nat} {t after : Text} :
    ∀ {e : ClassList.Expr} (important : Bool) (out : Evaluated), e.Laid sep start t after →
      Noted start t (env.expr mode apply important e out).diagnostics
  | .group source members marked closed, important, out,
      ⟨hsource, before, behind, body, ht, _, _, hmembers⟩ => by
    have ih := noted_exprs happly (important || marked) out hmembers
    rw [expr, Report.diagnostics_bind, Report.diagnostics_incomplete]
    refine Noted.own (fun d hd => (slice_of_mem_incomplete hd).trans hsource) ?_
    rw [ht]
    exact Noted.prepend (Noted.prepend (t := ['(']) ih.extend)
  | .span source variant none, important, out, ⟨_, tv, ht, hv⟩ => by
    rw [expr, Report.diagnostics_bind, Report.diagnostics_pure, List.append_nil, ht]
    exact (noted_wrapper? hv).extend
  | .span source variant (some child), important, out, ⟨_, tv, u, ht, hv, hchild⟩ => by
    have ih := noted_expr happly important {} hchild
    rw [diagnostics_expr_span, ht]
    exact (noted_wrapper? hv).extend.append ih
  | .utility source head marked, important, out, ⟨hsource, _⟩ => by
    rw [diagnostics_expr_utility happly, ← List.append_nil (_ ++ _)]
    refine Noted.own (fun d hd => ?_) .nil
    rcases List.mem_append.mp hd with hd | hd
    · exact (slice_of_mem_incomplete hd).trans hsource
    · exact (slice_of_mem_notesOn hd).trans hsource
  | .property source value marked closed, important, out, ⟨hsource, _⟩ => by
    rw [diagnostics_expr_property, ← List.append_nil (_ ++ _)]
    refine Noted.own (fun d hd => ?_) .nil
    rcases List.mem_append.mp hd with hd | hd
    · exact (slice_of_mem_incomplete hd).trans hsource
    · split at hd
      · exact absurd hd List.not_mem_nil
      · rw [List.mem_singleton.mp hd]
        exact hsource

theorem noted_exprs (happly : ∀ t, (apply t).diagnostics = []) {start : Nat} {t after : Text} :
    ∀ {es : List ClassList.Expr} (important : Bool) (out : Evaluated),
      ExprsLaid sep start t after es →
        Noted start t (env.exprs mode apply important es out).diagnostics
  | [], _, _, _ => .nil
  | e :: rest, important, out, ⟨b, te, u, ht, _, he, hrest⟩ => by
    rw [exprs, Report.diagnostics_bind, ht]
    exact (noted_expr happly important out he).prepend.append (noted_exprs happly important _ hrest)

end

/-! ## Torn names -/

theorem torn_expr_utility (source : Slice) (head : Head) (marked important : Bool)
    (out : Evaluated) :
    (env.expr mode apply important (.utility source head marked) out).torn =
      env.tears apply ⟨source, head.closed, .utility head marked⟩ := by
  rw [expr, Report.torn_bind, Report.torn_noteIf, Bool.false_or]
  have htears : env.tears apply ⟨source, head.closed, .utility head marked⟩ =
      match env.utilityOf head with
      | .ok found => (env.styleOf apply found).torn
      | .error failure => decide (failure = .torn) := rfl
  rw [htears]
  cases env.utilityOf head with
  | ok found =>
    rw [Report.torn_bind]
    exact Bool.or_false _
  | error failure =>
    rw [Report.torn_bind, Failure.torn_report]
    exact Bool.or_false _

mutual

/-- Nothing about a variant is torn. -/
theorem tears_variant : ∀ (v : ClassList.Variant) (first : Nat),
    (v.listing first).any (env.tears apply) = false
  | .named .., _ => rfl
  | .selector .., _ => rfl
  | .group _ members, first => by
    rw [Variant.listing, List.any_append, tears_members members first]
    rfl

theorem tears_members : ∀ (members : List (List ClassList.Variant)) (first : Nat),
    (membersListing first members).1.any (env.tears apply) = false
  | [], _ => rfl
  | links :: rest, first => by
    show ((chainListing first links).1 ++ (membersListing _ rest).1).any _ = false
    rw [List.any_append, tears_chain links first, tears_members rest]
    rfl

theorem tears_chain : ∀ (links : List ClassList.Variant) (first : Nat),
    (chainListing first links).1.any (env.tears apply) = false
  | [], _ => rfl
  | v :: rest, first => by
    show (v.listing first ++ (chainListing _ rest).1).any _ = false
    rw [List.any_append, tears_variant v first, tears_chain rest]
    rfl

end

mutual

/-- An evaluation is torn by a part of what it evaluates. -/
theorem torn_expr {start : Nat} {t after : Text} : ∀ {e : ClassList.Expr} (first : Nat)
    (important : Bool) (out : Evaluated), e.Laid sep start t after →
      (env.expr mode apply important e out).torn = (e.listing first).any (env.tears apply)
  | .group source members marked closed, first, important, out,
      ⟨_, _, _, _, _, _, _, hmembers⟩ => by
    rw [expr, Report.torn_bind, Report.torn_noteIf, Bool.false_or,
      torn_exprs first (important || marked) out hmembers, Expr.listing, List.any_append]
    exact (Bool.or_false _).symm
  | .span source variant none, first, important, out, ⟨_, _, _, hv⟩ => by
    rw [expr, Report.torn_bind, (decisive_wrapper? hv.sound).torn, Expr.listing, List.any_append,
      tears_variant variant first]
    rfl
  | .span source variant (some child), first, important, out, ⟨_, _, _, _, hv, hchild⟩ => by
    have ih := torn_expr (first + (variant.listing first).length) important {} hchild
    rw [torn_expr_span, (decisive_wrapper? hv.sound).torn, Bool.false_or, ih, Expr.listing,
      List.any_append, List.any_append, tears_variant variant first, Bool.false_or]
    exact (Bool.or_false _).symm
  | .utility source head marked, first, important, out, _ => by
    rw [torn_expr_utility, Expr.listing, List.any_cons, List.any_nil, Bool.or_false]
  | .property source value marked closed, first, important, out, _ => by
    rw [expr, Report.torn_bind, Report.torn_noteIf, Bool.false_or, Expr.listing]
    split <;> rfl

theorem torn_exprs {start : Nat} {t after : Text} : ∀ {es : List ClassList.Expr} (first : Nat)
    (important : Bool) (out : Evaluated), ExprsLaid sep start t after es →
      (env.exprs mode apply important es out).torn =
        (exprsListing first es).1.any (env.tears apply)
  | [], _, _, _, _ => rfl
  | e :: rest, first, important, out, ⟨_, _, _, _, _, he, hrest⟩ => by
    rw [exprs, Report.torn_bind, torn_expr first important out he,
      torn_exprs (first + (e.listing first).length) important _ hrest, ← List.any_append]
    rfl

end

end

/-- A decision among candidates is never that a name is torn. -/
theorem choose?_ne_torn {key : Text} {candidates : List Candidate}
    {decision : Except Failure ResolvedUtility}
    (h : Candidate.choose? key candidates = some decision) : decision ≠ .error .torn := by
  simp only [Candidate.choose?] at h
  split at h
  · exact absurd h (by simp)
  · rw [← Option.some.inj h]
    simp
  · rw [← Option.some.inj h]
    simp

theorem decide?_ne_torn (led : Bool) (readings : List Reading) :
    env.decide? led readings ≠ .error .torn := by
  induction readings with
  | nil => simp [decide?]
  | cons r rest ih =>
    rw [decide?]
    split
    · rename_i decision hdecision
      exact choose?_ne_torn hdecision
    · exact ih

/-- A name with a bracketed value is never torn. -/
theorem bracketedUtility_ne_torn (name value : Text) (m : Option ModifierText) :
    env.bracketedUtility name value m ≠ .error .torn := by
  simp only [bracketedUtility]
  split
  · rename_i decision hdecision
    rcases (Option.orElse_eq_some _ _ _).mp hdecision with h | ⟨-, h⟩
    · exact choose?_ne_torn h
    · obtain ⟨key, -, hkey⟩ := Option.bind_eq_some_iff.mp h
      exact choose?_ne_torn hkey
  · simp

/-- Only a modifier that is not closed tears its name. -/
theorem utilityOf_ne_torn {head : Head} {start : Nat} {t after : Text}
    (hlaid : head.Laid start t after) (hclosed : head.closed = true) :
    env.utilityOf head ≠ .error .torn := by
  cases head with
  | bracketed lead value m closed => exact bracketedUtility_ne_torn _ _ _
  | plain name m =>
    obtain ⟨core, suffix, hname, hspells⟩ := hlaid.spells hclosed
    obtain ⟨negative, front, rest, hends, hstrip⟩ := env.stripLead_eq name.text
    obtain ⟨core', suffix', taken, hparted⟩ :=
      Reading.exists_parted_of_suffix hspells (hname.symm.trans hends) negative
    rw [← hstrip] at hparted
    obtain ⟨readings, hall, -⟩ := hparted.listed env.registry.utilities UtilitySpec.isLookup
    simp only [utilityOf, utility, Head.modifier, hall]
    exact decide?_ne_torn _ readings

end

/-! ## Leaving out what is at fault -/

mutual

/-- The expression without what does not resolve, if anything is left of it. -/
def prune (env : Environment) : ClassList.Expr → Option ClassList.Expr
  | .group source members important closed =>
    some (.group source (exprsPrune env members) important closed)
  | .span source variant none =>
    if env.Resolves variant then some (.span source variant none) else none
  | .span source variant (some child) =>
    if env.Resolves variant then some (.span source variant (prune env child)) else none
  | .utility source head important =>
    match env.utilityOf head with
    | .ok _ => some (.utility source head important)
    | .error _ => none
  | .property source value important closed =>
    if (Bracketed.declaration? value.text).isSome then
      some (.property source value important closed)
    else none

/-- The expressions without what does not resolve. -/
def exprsPrune (env : Environment) : List ClassList.Expr → List ClassList.Expr
  | [] => []
  | e :: rest => (prune env e).toList ++ exprsPrune env rest

end

section

variable {mode : Mode} {apply : Text → Report StyleTree}

theorem exprs_append (important : Bool) (es more : List ClassList.Expr) (out : Evaluated) :
    env.exprs mode apply important (es ++ more) out =
      env.exprs mode apply important es out >>= env.exprs mode apply important more := by
  induction es generalizing out with
  | nil => rfl
  | cons e rest ih =>
    rw [List.cons_append, exprs, exprs, bind_assoc]
    congr 1
    funext out'
    exact ih out'

mutual

/-- What is at fault adds nothing to the styles. -/
theorem value_prune : ∀ (e : ClassList.Expr) (important : Bool) (out : Evaluated),
    (env.exprs mode apply important (env.prune e).toList out).value =
      (env.expr mode apply important e out).value
  | .group source members marked closed, important, out => by
    rw [prune, Option.toList_some, exprs_singleton, expr, expr]
    exact value_exprsPrune members (important || marked) out
  | .span source variant none, important, out => by
    rw [prune, expr]
    split <;> rfl
  | .span source variant (some child), important, out => by
    have ih := value_prune child important {}
    rw [value_expr_span, prune]
    by_cases hresolves : env.Resolves variant
    · obtain ⟨wrapper, hwrapper⟩ := Option.isSome_iff_exists.mp hresolves
      rw [if_pos hresolves, Option.toList_some, exprs_singleton, hwrapper]
      cases hchild : env.prune child with
      | none =>
        -- what is left of the child is nothing, and nothing is wrapped to nothing
        rw [hchild] at ih
        have hempty : (env.expr mode apply important child {}).value = {} := ih.symm
        rw [hempty]
        rfl
      | some child' =>
        rw [hchild, Option.toList_some, exprs_singleton] at ih
        rw [value_expr_span, hwrapper, ih]
    · have hnone : (env.wrapper? variant).value = none := by
        rwa [Resolves, Option.not_isSome_iff_eq_none] at hresolves
      rw [if_neg hresolves, hnone]
      rfl
  | .utility source head marked, important, out => by
    rw [prune]
    cases hfound : env.utilityOf head with
    | ok found => rw [Option.toList_some, exprs_singleton]
    | error failure =>
      rw [expr, Report.value_bind, hfound]
      rfl
  | .property source value marked closed, important, out => by
    rw [prune]
    cases hdeclaration : Bracketed.declaration? value.text with
    | some declaration => rw [Option.isSome_some, if_pos rfl, Option.toList_some, exprs_singleton]
    | none =>
      rw [expr, Report.value_bind, hdeclaration]
      rfl

theorem value_exprsPrune : ∀ (es : List ClassList.Expr) (important : Bool) (out : Evaluated),
    (env.exprs mode apply important (env.exprsPrune es) out).value =
      (env.exprs mode apply important es out).value
  | [], _, _ => rfl
  | e :: rest, important, out => by
    rw [exprsPrune, exprs_append, Report.value_bind, value_prune e important out,
      value_exprsPrune rest, exprs, Report.value_bind]

end

variable {sep : Separator}

/-- All notes are on parts that are not closed. -/
def OnlyIncomplete (notes : List Diagnostic) : Prop := ∀ d ∈ notes, d.kind = .parseIncomplete

theorem OnlyIncomplete.append {notes more : List Diagnostic} (h : OnlyIncomplete notes)
    (h' : OnlyIncomplete more) : OnlyIncomplete (notes ++ more) := by
  intro d hd
  rcases List.mem_append.mp hd with hd | hd
  · exact h d hd
  · exact h' d hd

theorem onlyIncomplete_incomplete (closed : Bool) (slice : Slice) :
    OnlyIncomplete (incomplete closed slice) := by
  cases closed <;> simp [OnlyIncomplete, incomplete]

mutual

/-- What is left resolves. -/
theorem onlyIncomplete_prune (happly : ∀ t, (apply t).diagnostics = []) {start : Nat}
    {t after : Text} : ∀ {e : ClassList.Expr} (important : Bool) (out : Evaluated),
      e.Laid sep start t after →
        OnlyIncomplete (env.exprs mode apply important (env.prune e).toList out).diagnostics
  | .group source members marked closed, important, out, ⟨_, _, _, _, _, _, _, hmembers⟩ => by
    rw [prune, Option.toList_some, exprs_singleton, expr, Report.diagnostics_bind,
      Report.diagnostics_incomplete]
    exact (onlyIncomplete_incomplete closed source).append
      (onlyIncomplete_exprsPrune happly (important || marked) out hmembers)
  | .span source variant none, important, out, ⟨_, _, _, hv⟩ => by
    rw [prune]
    split <;> rename_i hresolves
    · rw [Option.toList_some, exprs_singleton, expr, Report.diagnostics_bind,
        (decisive_wrapper? hv.sound).noted.mpr hresolves]
      simp [OnlyIncomplete]
    · simp [OnlyIncomplete, exprs]
  | .span source variant (some child), important, out, ⟨_, _, _, _, hv, hchild⟩ => by
    have ih := onlyIncomplete_prune happly important {} hchild
    rw [prune]
    split <;> rename_i hresolves
    · rw [Option.toList_some, exprs_singleton]
      have hnoted := (decisive_wrapper? hv.sound).noted.mpr hresolves
      cases hpruned : env.prune child with
      | none =>
        rw [expr, Report.diagnostics_bind, hnoted]
        simp [OnlyIncomplete]
      | some child' =>
        rw [hpruned, Option.toList_some, exprs_singleton] at ih
        rwa [diagnostics_expr_span, hnoted, List.nil_append]
    · simp [OnlyIncomplete, exprs]
  | .utility source head marked, important, out, _ => by
    rw [prune]
    cases hfound : env.utilityOf head with
    | ok found =>
      rw [Option.toList_some, exprs_singleton, diagnostics_expr_utility happly, hfound]
      exact (onlyIncomplete_incomplete _ _).append (by simp [OnlyIncomplete, notesOn])
    | error failure => simp [OnlyIncomplete, exprs]
  | .property source value marked closed, important, out, _ => by
    rw [prune]
    split <;> rename_i hdeclaration
    · rw [Option.toList_some, exprs_singleton, diagnostics_expr_property, if_pos hdeclaration]
      exact (onlyIncomplete_incomplete _ _).append (by simp [OnlyIncomplete])
    · simp [OnlyIncomplete, exprs]

theorem onlyIncomplete_exprsPrune (happly : ∀ t, (apply t).diagnostics = []) {start : Nat}
    {t after : Text} : ∀ {es : List ClassList.Expr} (important : Bool) (out : Evaluated),
      ExprsLaid sep start t after es →
        OnlyIncomplete (env.exprs mode apply important (env.exprsPrune es) out).diagnostics
  | [], _, _, _ => by simp [OnlyIncomplete, exprs, exprsPrune]
  | e :: rest, important, out, ⟨_, _, _, _, _, he, hrest⟩ => by
    rw [exprsPrune, exprs_append, Report.diagnostics_bind]
    exact (onlyIncomplete_prune happly important out he).append
      (onlyIncomplete_exprsPrune happly important _ hrest)

end

end

end Environment
end UtilityCss
