import UtilityCss.Json.Data
import UtilityCss.Proofs.Keyed

/-!
# Merging data

Merging is a matter of members: what stands under a key of merged objects is the merge of what
stands there in the two, and the keys of the second object that are new come behind those of the
first.  An absent value behaves like an object without members, so both statements hold for it as
well.

The type of data does not keep a key from standing in an object twice.  Data that is read or built
member by member never has such an object, and `WellKeyed` says so for those that keys lead to.
-/

namespace UtilityCss
namespace Data

variable {a b d value : Data} {key : Text} {base incoming members : List (Text × Data)}

/-! ## What keys lead to -/

/-- What keys lead to, one after the other. -/
def at? : List Text → Data → Option Data
  | [], d => some d
  | key :: path, d => (d.member? key).bind (at? path)

theorem at?_cons {path : List Text} {found : Data} (hmember : d.member? key = some value)
    (hpath : value.at? path = some found) : d.at? (key :: path) = some found := by
  rw [at?, hmember]
  exact hpath

theorem at?_append (path rest : List Text) : ∀ d : Data,
    d.at? (path ++ rest) = (d.at? path).bind (at? rest) := by
  induction path with
  | nil => exact fun _ => rfl
  | cons key path ih =>
    intro d
    rw [List.cons_append, at?, at?, Option.bind_assoc]
    exact congrArg _ (funext ih)

/-- Only objects have members. -/
theorem eq_object_of_member? (h : d.member? key = some value) : d = .object d.members := by
  cases d with
  | object members => rfl
  | _ => exact absurd h (Option.some_ne_none _).symm

/-- Members are smaller than the object that they are in. -/
theorem sizeOf_lt_of_member? (h : d.member? key = some value) : sizeOf value < sizeOf d := by
  rw [eq_object_of_member? h]
  have hlt := List.sizeOf_lt_of_mem (Keyed.mem_of_lookup h)
  simp only [Prod.mk.sizeOf_spec, Data.object.sizeOf_spec] at hlt ⊢
  omega

/-- What holds of a value as soon as it holds of its members holds of all data. -/
@[elab_as_elim]
theorem memberwise {motive : Data → Prop}
    (h : ∀ d, (∀ key value, d.member? key = some value → motive value) → motive d) (d : Data) :
    motive d :=
  h d fun _ value hmember =>
    have _ := sizeOf_lt_of_member? hmember
    memberwise h value
termination_by sizeOf d

/-- No object that keys lead to has a key twice. -/
def WellKeyed (d : Data) : Prop :=
  ∀ path members, d.at? path = some (.object members) → Keyed.Distinct members

theorem WellKeyed.distinct (h : WellKeyed d) : Keyed.Distinct d.members := by
  cases d with
  | object members => exact h [] members rfl
  | _ => exact Keyed.distinct_nil

theorem WellKeyed.member (h : WellKeyed d) (hmember : d.member? key = some value) :
    WellKeyed value :=
  fun path members hpath => h (key :: path) members (at?_cons hmember hpath)

theorem WellKeyed.at? (h : WellKeyed d) {path : List Text} (hpath : d.at? path = some value) :
    WellKeyed value :=
  fun rest members hrest => h (path ++ rest) members (by rw [at?_append, hpath]; exact hrest)

theorem wellKeyed_of_members (hdistinct : Keyed.Distinct d.members)
    (hmembers : ∀ entry ∈ d.members, WellKeyed entry.2) : WellKeyed d := by
  rintro (_ | ⟨key, path⟩) members hpath
  · obtain rfl : d = .object members := Option.some.inj hpath
    exact hdistinct
  · obtain ⟨value, hmember, hpath⟩ := Option.bind_eq_some_iff.mp hpath
    exact hmembers (key, value) (Keyed.mem_of_lookup hmember) path members hpath

/-! ### Objects without objects in them -/

/-- No member of the object has members itself. -/
def Flat (d : Data) : Prop := ∀ entry ∈ d.members, entry.2.members = []

instance (d : Data) : Decidable (Flat d) :=
  inferInstanceAs (Decidable (∀ entry ∈ d.members, entry.2.members = []))

/-- Keys lead from such an object to its members and no further. -/
theorem Flat.of_at?_cons (h : Flat d) {path : List Text} {found : Data}
    (hpath : d.at? (key :: path) = some found) : path = [] ∧ d.member? key = some found := by
  obtain ⟨value, hmember, hpath⟩ := Option.bind_eq_some_iff.mp hpath
  cases path with
  | nil => exact ⟨rfl, hmember.trans hpath⟩
  | cons next path =>
    obtain ⟨below, hbelow, -⟩ := Option.bind_eq_some_iff.mp hpath
    rw [member?, h (key, value) (Keyed.mem_of_lookup hmember)] at hbelow
    cases hbelow

theorem Flat.wellKeyed (h : Flat d) (hdistinct : Keyed.Distinct d.members) : WellKeyed d := by
  rintro (_ | ⟨key, path⟩) members hpath
  · obtain rfl : d = .object members := Option.some.inj hpath
    exact hdistinct
  · obtain ⟨-, hmember⟩ := h.of_at?_cons hpath
    obtain rfl : members = [] := h (key, .object members) (Keyed.mem_of_lookup hmember)
    exact Keyed.distinct_nil

/-! ## Objects -/

/-- Over nothing, a value is itself. -/
theorem null_merge (d : Data) : merge .null d = d := by
  cases d <;> rfl

theorem overlayMembers_eq_foldl (incoming base : List (Text × Data)) :
    overlayMembers incoming base = incoming.foldl (fun table entry =>
      Keyed.put entry.1 (merge ((table.lookup entry.1).getD .null) entry.2) table) base := by
  induction incoming generalizing base with
  | nil => rfl
  | cons entry rest ih =>
    obtain ⟨key, value⟩ := entry
    rw [overlayMembers, ih, List.foldl_cons]
    cases hkey : base.lookup key with
    | none => rw [Option.getD_none, null_merge, Keyed.put_eq_append value hkey]
    | some previous => rfl

/-- What is found in merged members. -/
theorem lookup_overlayMembers (h : Keyed.Distinct incoming) (base : List (Text × Data))
    (key : Text) : (overlayMembers incoming base).lookup key =
      Option.merge merge (base.lookup key) (incoming.lookup key) := by
  rw [overlayMembers_eq_foldl,
    Keyed.lookup_foldl_put h (fun previous value => merge (previous.getD .null) value)]
  cases base.lookup key <;> cases incoming.lookup key <;> simp [null_merge]

theorem lookup_overlayMembers_of_both {previous : Data} (h : Keyed.Distinct incoming)
    (hprevious : base.lookup key = some previous) (hvalue : incoming.lookup key = some value) :
    (overlayMembers incoming base).lookup key = some (merge previous value) := by
  rw [lookup_overlayMembers h, hprevious, hvalue]
  rfl

/-- The keys that are there stay where they are, and those that are new come behind them. -/
theorem keys_overlayMembers (h : Keyed.Distinct incoming) (base : List (Text × Data)) :
    Keyed.keys (overlayMembers incoming base) =
      Keyed.keys base ++ (Keyed.keys incoming).filter (· ∉ Keyed.keys base) := by
  rw [overlayMembers_eq_foldl,
    Keyed.keys_foldl_put h fun previous value => merge (previous.getD .null) value]

/-! ## Lists and everything else -/

/-- Is the first item of a list an object? -/
def StartsWithObject (items : List Data) : Prop := ∃ first ∈ items.head?, first.isObject = true

instance (items : List Data) : Decidable (StartsWithObject items) :=
  inferInstanceAs (Decidable (∃ first ∈ items.head?, first.isObject = true))

/-- A list whose first item is an object grows, any other one is replaced. -/
theorem merge_list (base incoming : List Data) : merge (.list base) (.list incoming) =
    .list (if StartsWithObject base then base ++ incoming else incoming) := by
  cases base with
  | nil => rfl
  | cons first rest => cases first <;> rfl

/-- Is the value a list? -/
def isList : Data → Bool
  | .list _ => true
  | _ => false

/-- Where not two objects meet and not two lists, what is there takes the place of what was there. -/
theorem merge_eq_right (hnull : b ≠ .null) (hobjects : ¬ (a.isObject ∧ b.isObject))
    (hlists : ¬ (a.isList ∧ b.isList)) : merge a b = b := by
  cases a <;> cases b <;> first | rfl | exact absurd rfl hnull | simp [isObject, isList] at *

end Data
end UtilityCss
