import UtilityCss.Text.Basic

/-!
# Ordered tables

Objects, style trees and registries are tables whose order is part of what they
say.  A table is the list of its entries; writing under a key that is present
replaces the value where it stands, writing under a new key appends.  Reading is
`List.lookup`.
-/

namespace UtilityCss
namespace Keyed

variable {α : Type}

/-- The keys, in order. -/
def keys (entries : List (Text × α)) : List Text := entries.map Prod.fst

/-- Does the table have an entry under the key? -/
def has (key : Text) (entries : List (Text × α)) : Bool := (entries.lookup key).isSome

/-- Writes a value under a key: in place when the key is present, at the end
otherwise. -/
def put (key : Text) (value : α) : List (Text × α) → List (Text × α)
  | [] => [(key, value)]
  | (k, v) :: rest => if k = key then (k, value) :: rest else (k, v) :: put key value rest

/-- Drops the entry under a key. -/
def erase (key : Text) (entries : List (Text × α)) : List (Text × α) :=
  entries.filter fun entry => entry.1 ≠ key

/-- The table made by writing entries one after the other. -/
def ofList (entries : List (Text × α)) : List (Text × α) :=
  entries.foldl (fun table entry => put entry.1 entry.2 table) []

@[simp] theorem lookup_put_self (key : Text) (value : α) (entries : List (Text × α)) :
    (put key value entries).lookup key = some value := by
  induction entries with
  | nil => simp [put]
  | cons entry rest ih =>
    obtain ⟨k, v⟩ := entry
    by_cases h : k = key
    · simp [put, h]
    · have : (key == k) = false := by simpa using Ne.symm h
      simp [put, h, List.lookup_cons, this, ih]

theorem lookup_put_of_ne {key other : Text} (h : other ≠ key) (value : α)
    (entries : List (Text × α)) : (put key value entries).lookup other = entries.lookup other := by
  have absent : (other == key) = false := by simpa using h
  induction entries with
  | nil => simp [put, List.lookup_cons, absent]
  | cons entry rest ih =>
    obtain ⟨k, v⟩ := entry
    by_cases hk : k = key
    · subst hk
      simp [put, List.lookup_cons, absent]
    · simp [put, hk, List.lookup_cons, ih]

/-- The keys after a write: the same ones, or one more at the end. -/
theorem keys_put (key : Text) (value : α) (entries : List (Text × α)) :
    keys (put key value entries)
      = if key ∈ keys entries then keys entries else keys entries ++ [key] := by
  induction entries with
  | nil => simp [put, keys]
  | cons entry rest ih =>
    obtain ⟨k, v⟩ := entry
    simp only [keys] at ih
    by_cases h : k = key
    · simp [put, keys, h]
    · have h' : key ≠ k := Ne.symm h
      by_cases m : key ∈ rest.map Prod.fst <;> simp_all [put, keys]

end Keyed
end UtilityCss
