import Mathlib.Data.List.Basic
import UtilityCss.Proofs.Json.Merge

/-!
# Values merged one after the other

Pieces of one value are merged from the first to the last.  As long as a path leads through objects
and absent values only, in every piece, the pieces do not get into each other's way: what the path
leads to in the outcome is the merge of what it leads to in the pieces (`at?_foldl_merge`).

So it is enough to know what becomes of pieces that all end there.  Of scalars the last one is left
that is not `null`, and of objects one with the keys of all of them, each where it came first.
-/

namespace UtilityCss
namespace Data

variable {a b d value : Data} {key : Text} {path : List Text} {pieces : List Data}

/-- An object, or `null` where one could be. -/
inductive IsOpen : Data → Prop where
  | null : IsOpen .null
  | object (members : List (Text × Data)) : IsOpen (.object members)

instance : DecidablePred IsOpen
  | .null => isTrue .null
  | .object members => isTrue (.object members)
  | .bool _ | .number _ | .text _ | .list _ => isFalse nofun

/-- Neither an object nor a list. -/
def IsScalar (d : Data) : Prop := d.isObject = false ∧ d.isList = false

instance (d : Data) : Decidable (IsScalar d) :=
  inferInstanceAs (Decidable (d.isObject = false ∧ d.isList = false))

/-- On the way along the path, before its end, there are objects and absent values only. -/
def OpenAlong : List Text → Data → Prop
  | [], _ => True
  | key :: path, d => IsOpen d ∧ ∀ value, d.member? key = some value → OpenAlong path value

/-- Whether a path is open is decided along the path. -/
def decOpenAlong : ∀ (path : List Text) (d : Data), Decidable (OpenAlong path d)
  | [], _ => isTrue trivial
  | key :: path, d =>
    have _ := decOpenAlong path
    inferInstanceAs (Decidable (IsOpen d ∧ ∀ value ∈ d.member? key, OpenAlong path value))

instance (path : List Text) (d : Data) : Decidable (OpenAlong path d) := decOpenAlong path d

/-- Whatever the path leads to before its end is open. -/
theorem OpenAlong.front {front rest : List Text} : ∀ {d : Data},
    OpenAlong (front ++ key :: rest) d →
      OpenAlong front d ∧ ∀ value, d.at? front = some value → IsOpen value := by
  induction front with
  | nil =>
    intro d h
    refine ⟨trivial, fun value hvalue => ?_⟩
    rw [← Option.some.inj hvalue]
    exact h.1
  | cons first front ih =>
    rintro d ⟨hopen, hmembers⟩
    refine ⟨⟨hopen, fun value hvalue => (ih (hmembers value hvalue)).1⟩, fun value hvalue => ?_⟩
    obtain ⟨below, hbelow, hvalue⟩ := Option.bind_eq_some_iff.mp hvalue
    exact (ih (hmembers below hbelow)).2 value hvalue

/-! ## Two values -/

theorem member?_merge (ha : IsOpen a) (hb : IsOpen b) (hdistinct : Keyed.Distinct b.members)
    (key : Text) : (merge a b).member? key =
      Option.merge merge (a.member? key) (b.member? key) := by
  cases hb with
  | null =>
    rw [merge_null]
    exact Option.merge_none_right.symm
  | object incoming =>
    cases ha with
    | null => exact Option.merge_none_left.symm
    | object base => exact lookup_overlayMembers hdistinct base key

theorem keys_merge (ha : IsOpen a) (hb : IsOpen b) (hdistinct : Keyed.Distinct b.members) :
    Keyed.keys (merge a b).members =
      Keyed.keys a.members ++ (Keyed.keys b.members).filter (· ∉ Keyed.keys a.members) := by
  cases hb with
  | null =>
    rw [merge_null]
    exact (List.append_nil _).symm
  | object incoming =>
    cases ha with
    | null => exact (List.filter_eq_self.mpr fun _ _ => decide_eq_true List.not_mem_nil).symm
    | object base => exact keys_overlayMembers hdistinct base

theorem IsOpen.merge (ha : IsOpen a) (hb : IsOpen b) : IsOpen (merge a b) := by
  cases ha <;> cases hb <;> constructor

theorem isObject_merge (ha : IsOpen a) (hb : IsOpen b) :
    (merge a b).isObject = (a.isObject || b.isObject) := by
  cases ha <;> cases hb <;> rfl

/-- A path leads to the merge of what it leads to in the two values. -/
theorem at?_merge : ∀ {path : List Text} {a b : Data}, OpenAlong path a → OpenAlong path b →
    WellKeyed b → (merge a b).at? path = Option.merge merge (a.at? path) (b.at? path)
  | [], _, _, _, _, _ => rfl
  | key :: path, a, b, ⟨ha, halong⟩, ⟨hb, hblong⟩, hkeyed => by
    rw [at?, at?, at?, member?_merge ha hb hkeyed.distinct]
    cases hprevious : a.member? key with
    | none => rw [Option.merge_none_left, Option.bind_none, Option.merge_none_left]
    | some previous =>
      cases hvalue : b.member? key with
      | none => rw [Option.merge_none_right, Option.bind_none, Option.merge_none_right]
      | some value =>
        exact at?_merge (halong previous hprevious) (hblong value hvalue) (hkeyed.member hvalue)

theorem OpenAlong.merge : ∀ {path : List Text} {a b : Data}, OpenAlong path a →
    OpenAlong path b → WellKeyed b → OpenAlong path (merge a b)
  | [], _, _, _, _, _ => trivial
  | key :: path, a, b, ⟨ha, halong⟩, ⟨hb, hblong⟩, hkeyed => by
    refine ⟨ha.merge hb, fun merged hmerged => ?_⟩
    rw [member?_merge ha hb hkeyed.distinct] at hmerged
    cases hprevious : a.member? key with
    | none =>
      rw [hprevious, Option.merge_none_left] at hmerged
      exact hblong merged hmerged
    | some previous =>
      cases hvalue : b.member? key with
      | none =>
        rw [hvalue, Option.merge_none_right, hprevious] at hmerged
        exact halong merged (hprevious.trans hmerged)
      | some value =>
        rw [hprevious, hvalue] at hmerged
        rw [← Option.some.inj hmerged]
        exact (halong previous hprevious).merge (hblong value hvalue) (hkeyed.member hvalue)

/-! ## Any number of values -/

theorem openAlong_null : ∀ path : List Text, OpenAlong path .null
  | [] => trivial
  | _ :: _ => ⟨.null, nofun⟩

theorem openAlong_foldl_merge (hopen : ∀ d ∈ pieces, OpenAlong path d)
    (hkeyed : ∀ d ∈ pieces, WellKeyed d) : OpenAlong path (pieces.foldl merge .null) :=
  List.foldlRecOn pieces merge (openAlong_null path) fun _ hbelow d hd =>
    hbelow.merge (hopen d hd) (hkeyed d hd)

/-- A path leads to the merge of what it leads to in the pieces. -/
theorem at?_foldl_merge (hopen : ∀ d ∈ pieces, OpenAlong path d)
    (hkeyed : ∀ d ∈ pieces, WellKeyed d) (hne : pieces ≠ []) :
    (pieces.foldl merge .null).at? path =
      if pieces.filterMap (at? path) = [] then none
      else some ((pieces.filterMap (at? path)).foldl merge .null) := by
  induction pieces using List.reverseRecOn with
  | nil => exact absurd rfl hne
  | append_singleton rest last ih =>
    rw [List.forall_mem_append, List.forall_mem_singleton] at hopen hkeyed
    rw [List.foldl_append, List.foldl_cons, List.foldl_nil, List.filterMap_append]
    by_cases hrest : rest = []
    · subst hrest
      rw [List.foldl_nil, null_merge]
      cases hlast : last.at? path <;> simp [hlast, null_merge]
    · rw [at?_merge (openAlong_foldl_merge hopen.1 hkeyed.1) hopen.2 hkeyed.2,
        ih hopen.1 hkeyed.1 hrest]
      cases hlast : last.at? path with
      | none => simp [hlast]
      | some value => by_cases hnone : rest.filterMap (at? path) = [] <;>
          simp [hlast, hnone, null_merge]

theorem merge_scalar (h : IsScalar b) : merge a b = if b = .null then a else b := by
  split
  · rename_i hnull
    rw [hnull, merge_null]
  · rename_i hnull
    exact merge_eq_right hnull (by simp [h.1]) (by simp [h.2])

/-- Of scalars the last one is left that is not `null`. -/
theorem foldl_merge_scalars (h : ∀ d ∈ pieces, IsScalar d) :
    pieces.foldl merge .null = (pieces.reverse.find? (· ≠ .null)).getD .null := by
  induction pieces using List.reverseRecOn with
  | nil => rfl
  | append_singleton rest last ih =>
    rw [List.forall_mem_append, List.forall_mem_singleton] at h
    rw [List.foldl_append, List.foldl_cons, List.foldl_nil, merge_scalar h.2, ih h.1,
      List.reverse_concat, List.find?_cons]
    by_cases hnull : last = .null <;> simp [hnull]

/-- Of objects one is left that has the keys of all of them, each where it came first. -/
theorem foldl_merge_open (hopen : ∀ d ∈ pieces, IsOpen d)
    (hdistinct : ∀ d ∈ pieces, Keyed.Distinct d.members) :
    IsOpen (pieces.foldl merge .null) ∧
      (pieces.foldl merge .null).isObject = pieces.any isObject ∧
      Keyed.keys (pieces.foldl merge .null).members =
        (pieces.flatMap fun d => Keyed.keys d.members).eraseDups := by
  induction pieces using List.reverseRecOn with
  | nil => exact ⟨.null, rfl, rfl⟩
  | append_singleton rest last ih =>
    rw [List.forall_mem_append, List.forall_mem_singleton] at hopen hdistinct
    obtain ⟨hbelow, hobject, hkeys⟩ := ih hopen.1 hdistinct.1
    rw [List.foldl_append, List.foldl_cons, List.foldl_nil]
    refine ⟨hbelow.merge hopen.2, ?_, ?_⟩
    · rw [isObject_merge hbelow hopen.2, hobject]
      simp
    · rw [keys_merge hbelow hopen.2 hdistinct.2, hkeys, List.flatMap_append,
        List.flatMap_singleton, Keyed.eraseDups_append_of_nodup _ hdistinct.2]

/-! ## Paths that end at scalars -/

/-- The keys of the object that the path leads to. -/
def keysAt (path : List Text) (d : Data) : List Text :=
  Keyed.keys ((d.at? path).getD .null).members

/-- A value other than `null` that the path leads to. -/
def present? (path : List Text) (d : Data) : Option Data := (d.at? path).filter (· ≠ .null)

theorem getD_present? (path : List Text) (d : Data) :
    (d.present? path).getD .null = (d.at? path).getD .null := by
  rw [present?]
  cases d.at? path with
  | none => rfl
  | some value => by_cases hnull : value = .null <;> simp [Option.filter, hnull]

/-- The path leads through objects and absent values, and neither to an object nor to a list. -/
structure LeadsToScalar (path : List Text) (d : Data) : Prop where
  wellKeyed : WellKeyed d
  along : OpenAlong path d
  isScalar : ∀ value, d.at? path = some value → IsScalar value

variable {path front : List Text} {pieces : List Data}

/-- Of the pieces that have a value at the end of the path the last one decides. -/
theorem at?_foldl_merge_of_leadsToScalar (h : ∀ d ∈ pieces, LeadsToScalar path d)
    (hne : pieces ≠ []) :
    ((pieces.foldl merge .null).at? path).getD .null =
        (pieces.reverse.findSome? (present? path)).getD .null ∧
      ((pieces.foldl merge .null).at? path = none ↔ ∀ d ∈ pieces, d.at? path = none) := by
  rw [at?_foldl_merge (fun d hd => (h d hd).along) (fun d hd => (h d hd).wellKeyed) hne]
  have hscalars : ∀ value ∈ pieces.filterMap (at? path), IsScalar value := by
    intro value hvalue
    obtain ⟨d, hd, hpath⟩ := List.mem_filterMap.mp hvalue
    exact (h d hd).isScalar value hpath
  have hlast : (pieces.filterMap (at? path)).reverse.find? (· ≠ .null) =
      pieces.reverse.findSome? (present? path) := by
    rw [← List.filterMap_reverse, ← List.head?_filter, List.filter_filterMap, List.head?_filterMap]
    rfl
  refine ⟨?_, ?_⟩
  · rw [← hlast]
    split <;> rename_i hnone
    · rw [hnone]
      rfl
    · rw [Option.getD_some, foldl_merge_scalars hscalars]
  · rw [← List.filterMap_eq_nil_iff]
    split <;> simp [*]

theorem flatMap_keysAt : pieces.flatMap (keysAt path) =
    (pieces.filterMap (at? path)).flatMap fun d => Keyed.keys d.members := by
  rw [List.filterMap_eq_flatMap_toList, List.flatMap_assoc]
  refine List.flatMap_congr fun d _ => ?_
  rw [keysAt]
  cases d.at? path <;> simp [Keyed.keys, members]

/-- An object on the way has the keys of all pieces, each where it came first. -/
theorem keysAt_foldl_merge (h : ∀ d ∈ pieces, LeadsToScalar path d) (hfront : front <+: path)
    (hobject : ∃ d ∈ pieces, ∃ members, d.at? front = some (.object members)) :
    ∃ members, (pieces.foldl merge .null).at? front = some (.object members) ∧
      Keyed.keys members = (pieces.flatMap (keysAt front)).eraseDups := by
  obtain ⟨piece, hpiece, own, hmembers⟩ := hobject
  have hfound : Data.object own ∈ pieces.filterMap (at? front) :=
    List.mem_filterMap.mpr ⟨piece, hpiece, hmembers⟩
  -- the path does not end at an object, so it goes on there
  obtain ⟨_ | ⟨key, rest⟩, rfl⟩ := hfront
  · rw [List.append_nil] at h
    exact absurd ((h piece hpiece).isScalar _ hmembers).1 Bool.noConfusion
  have halong := fun d hd => (h d hd).along.front
  have hopen : ∀ value ∈ pieces.filterMap (at? front), IsOpen value := by
    intro value hvalue
    obtain ⟨d, hd, hpath⟩ := List.mem_filterMap.mp hvalue
    exact (halong d hd).2 value hpath
  have hdistinct : ∀ value ∈ pieces.filterMap (at? front), Keyed.Distinct value.members := by
    intro value hvalue
    obtain ⟨d, hd, hpath⟩ := List.mem_filterMap.mp hvalue
    exact ((h d hd).wellKeyed.at? hpath).distinct
  obtain ⟨-, hobject, hkeys⟩ := foldl_merge_open hopen hdistinct
  rw [List.any_eq_true.mpr ⟨_, hfound, rfl⟩] at hobject
  rw [at?_foldl_merge (fun d hd => (halong d hd).1) (fun d hd => (h d hd).wellKeyed)
    (List.ne_nil_of_mem hpiece), if_neg (List.ne_nil_of_mem hfound)]
  generalize (pieces.filterMap (at? front)).foldl merge .null = merged at hobject hkeys ⊢
  cases merged with
  | object members => exact ⟨members, rfl, hkeys.trans (congrArg List.eraseDups flatMap_keysAt.symm)⟩
  | _ => cases hobject

end Data
end UtilityCss
