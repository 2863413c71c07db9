import UtilityCss.ClassList.Listing
import UtilityCss.Proofs.ClassList.Derivation

/-!
# Listings are trees

Every part of a listing but the last is a child of exactly one part, which comes
later.  Where a part stands depends on how many parts are before it, so the statement
is made for the listing of a subtree from any place on: `Refers` keeps count of the parts
that still lack a parent.

For what a part says about its children the listing of a subtree has to be found in the
listing of the whole.  `Occupies` says that a list of parts is the stretch of it from a
given place on, and `sourcesAt` reads the slices at the places a part refers to.
-/

namespace UtilityCss
namespace ClassList

/-! ## Children -/

/-- The places of the parts that a part consists of, in the order of the source. -/
def Shape.children : Shape → List Nat
  | program exprs => exprs
  | group _ exprs => exprs
  | span place none => [place]
  | span place (some child) => [place, child]
  | groupVariant members => members.flatten
  | _ => []

/-- The places of the children of all parts. -/
def references (nodes : List Node) : List Nat := nodes.flatMap fun n => n.shape.children

@[simp] theorem references_append (nodes more : List Node) :
    references (nodes ++ more) = references nodes ++ references more :=
  List.flatMap_append

@[simp] theorem references_singleton (n : Node) : references [n] = n.shape.children := by
  rw [references, List.flatMap_singleton]

/-- Of the parts from place `first` on, those at `places` have no parent among them, and
every other one is a child exactly once. -/
def Refers (first : Nat) (nodes : List Node) (places : List Nat) : Prop :=
  (references nodes ++ places).Perm (List.range' first nodes.length)

namespace Refers

variable {first : Nat} {nodes more : List Node} {places others : List Nat} {n : Node}

theorem nil (first : Nat) : Refers first [] [] := List.Perm.nil

theorem mem {p : Nat} (h : Refers first nodes places) (hp : p ∈ places) :
    first ≤ p ∧ p < first + nodes.length := by
  have hmem := h.mem_iff.mp (List.mem_append_right _ hp)
  exact List.mem_range'_1.mp hmem

/-- One part more that takes up the places. -/
theorem snoc (h : Refers first nodes places) (hn : n.shape.children = places) :
    Refers first (nodes ++ [n]) [first + (nodes ++ [n]).length - 1] := by
  have hplace : first + (nodes ++ [n]).length - 1 = first + nodes.length := by
    rw [List.length_append, List.length_singleton]
    omega
  unfold Refers at h ⊢
  rw [hplace, references_append, references_singleton, hn, List.length_append,
    List.length_singleton, List.range'_1_concat]
  exact h.append_right _

/-- Two stretches one behind the other. -/
theorem append (h : Refers first nodes places) (h' : Refers (first + nodes.length) more others) :
    Refers first (nodes ++ more) (places ++ others) := by
  have hmove : (references (nodes ++ more) ++ (places ++ others)).Perm
      ((references nodes ++ places) ++ (references more ++ others)) := by
    rw [references_append, List.append_assoc, List.append_assoc]
    exact (List.perm_append_comm_assoc (references more) places others).append_left _
  unfold Refers
  rw [List.length_append, ← List.range'_append_1]
  exact hmove.trans (List.Perm.append h h')

end Refers

/-- The listing of a variant ends with the variant. -/
theorem Variant.exists_listing (first : Nat) : ∀ v : Variant,
    ∃ init n, v.listing first = init ++ [n] ∧ n.source = v.source := by
  intro v
  cases v with
  | named => exact ⟨[], _, rfl, rfl⟩
  | selector => exact ⟨[], _, rfl, rfl⟩
  | group _ members => exact ⟨(membersListing first members).1, _, rfl, rfl⟩

/-- The listing of an expression ends with the expression. -/
theorem Expr.exists_listing (first : Nat) : ∀ e : Expr,
    ∃ init n, e.listing first = init ++ [n] ∧ n.source = e.source := by
  intro e
  cases e with
  | group _ members _ _ => exact ⟨(exprsListing first members).1, _, rfl, rfl⟩
  | span _ variant child =>
    cases child with
    | none => exact ⟨variant.listing first, _, rfl, rfl⟩
    | some child =>
      exact ⟨variant.listing first ++
        child.listing (first + (variant.listing first).length), _, rfl, rfl⟩
  | utility => exact ⟨[], _, rfl, rfl⟩
  | property => exact ⟨[], _, rfl, rfl⟩

mutual

theorem Variant.refers (first : Nat) : ∀ v : Variant,
    Refers first (v.listing first) [first + (v.listing first).length - 1]
  | .named .. => (Refers.nil first).snoc rfl
  | .selector .. => (Refers.nil first).snoc rfl
  | .group _ members => (membersRefers first members).snoc rfl

theorem chainRefers (first : Nat) : ∀ links : List Variant,
    Refers first (chainListing first links).1 (chainListing first links).2
  | [] => Refers.nil first
  | v :: rest => (Variant.refers first v).append (chainRefers _ rest)

theorem membersRefers (first : Nat) : ∀ members : List (List Variant),
    Refers first (membersListing first members).1 (membersListing first members).2.flatten
  | [] => Refers.nil first
  | links :: rest => (chainRefers first links).append (membersRefers _ rest)

end

mutual

theorem Expr.refers (first : Nat) : ∀ e : Expr,
    Refers first (e.listing first) [first + (e.listing first).length - 1]
  | .group _ members _ _ => (exprsRefers first members).snoc rfl
  | .span _ variant none => (Variant.refers first variant).snoc rfl
  | .span _ variant (some child) =>
    ((Variant.refers first variant).append (Expr.refers _ child)).snoc rfl
  | .utility .. => (Refers.nil first).snoc rfl
  | .property .. => (Refers.nil first).snoc rfl

theorem exprsRefers (first : Nat) : ∀ es : List Expr,
    Refers first (exprsListing first es).1 (exprsListing first es).2
  | [] => Refers.nil first
  | e :: rest => (Expr.refers first e).append (exprsRefers _ rest)

end

/-! ## Stretches of a listing -/

/-- The parts stand in the whole listing from place `first` on. -/
def Occupies (all : List Node) (first : Nat) (nodes : List Node) : Prop :=
  ∀ k n, nodes[k]? = some n → all[first + k]? = some n

namespace Occupies

variable {all nodes more : List Node} {first : Nat} {n : Node}

theorem self (all : List Node) : Occupies all 0 all := fun k n h => by rwa [Nat.zero_add]

theorem left (h : Occupies all first (nodes ++ more)) : Occupies all first nodes := by
  intro k n hk
  obtain ⟨hlt, -⟩ := List.getElem?_eq_some_iff.mp hk
  exact h k n (by rw [List.getElem?_append_left hlt]; exact hk)

theorem right (h : Occupies all first (nodes ++ more)) :
    Occupies all (first + nodes.length) more := by
  intro k n hk
  rw [Nat.add_assoc]
  refine h (nodes.length + k) n ?_
  rw [List.getElem?_append_right (by omega), Nat.add_sub_cancel_left]
  exact hk

theorem last (h : Occupies all first (nodes ++ [n])) :
    all[first + (nodes ++ [n]).length - 1]? = some n := by
  have hplace : first + (nodes ++ [n]).length - 1 = first + nodes.length := by
    rw [List.length_append, List.length_singleton]
    omega
  rw [hplace]
  exact h nodes.length n (by simp)

end Occupies

/-- The slices of the parts at the places. -/
def sourcesAt (all : List Node) (places : List Nat) : List Slice :=
  places.filterMap fun place => all[place]?.map Node.source

theorem sourcesAt_cons {all : List Node} {place : Nat} {n : Node} (h : all[place]? = some n)
    (places : List Nat) : sourcesAt all (place :: places) = n.source :: sourcesAt all places := by
  rw [sourcesAt, List.filterMap_cons_some (b := n.source) (by rw [h]; rfl)]
  rfl

theorem sourcesAt_append (all : List Node) (places more : List Nat) :
    sourcesAt all (places ++ more) = sourcesAt all places ++ sourcesAt all more :=
  List.filterMap_append

/-- The slice of a variant is found at its place. -/
theorem Variant.sourcesAt_eq {all : List Node} {first : Nat} {v : Variant}
    (h : Occupies all first (v.listing first)) (places : List Nat) :
    sourcesAt all ((first + (v.listing first).length - 1) :: places) =
      v.source :: sourcesAt all places := by
  obtain ⟨init, n, hlisting, hsource⟩ := v.exists_listing first
  rw [hlisting] at h ⊢
  rw [sourcesAt_cons h.last, hsource]

/-- The slice of an expression is found at its place. -/
theorem Expr.sourcesAt_eq {all : List Node} {first : Nat} {e : Expr}
    (h : Occupies all first (e.listing first)) (places : List Nat) :
    sourcesAt all ((first + (e.listing first).length - 1) :: places) =
      e.source :: sourcesAt all places := by
  obtain ⟨init, n, hlisting, hsource⟩ := e.exists_listing first
  rw [hlisting] at h ⊢
  rw [sourcesAt_cons h.last, hsource]

theorem chainSources {all : List Node} : ∀ {first : Nat} {links : List Variant},
    Occupies all first (chainListing first links).1 →
      sourcesAt all (chainListing first links).2 = links.map Variant.source
  | _, [], _ => rfl
  | first, v :: rest, h => by
    have hrest : Occupies all (first + (v.listing first).length) (chainListing _ rest).1 := h.right
    have ih := chainSources hrest
    rw [List.map_cons, ← ih]
    exact v.sourcesAt_eq h.left _

theorem membersSources {all : List Node} : ∀ {first : Nat} {members : List (List Variant)},
    Occupies all first (membersListing first members).1 →
      sourcesAt all (membersListing first members).2.flatten =
        members.flatten.map Variant.source
  | _, [], _ => rfl
  | first, links :: rest, h => by
    have hrest : Occupies all (first + (chainListing first links).1.length)
        (membersListing _ rest).1 := h.right
    have ih := membersSources hrest
    rw [List.flatten_cons, List.map_append, ← ih, ← chainSources h.left]
    exact sourcesAt_append ..

theorem exprsSources {all : List Node} : ∀ {first : Nat} {es : List Expr},
    Occupies all first (exprsListing first es).1 →
      sourcesAt all (exprsListing first es).2 = es.map Expr.source
  | _, [], _ => rfl
  | first, e :: rest, h => by
    have hrest : Occupies all (first + (e.listing first).length) (exprsListing _ rest).1 := h.right
    have ih := exprsSources hrest
    rw [List.map_cons, ← ih]
    exact e.sourcesAt_eq h.left _

end ClassList
end UtilityCss
