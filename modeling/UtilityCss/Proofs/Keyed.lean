import Mathlib.Data.List.Induction
import UtilityCss.Keyed

/-!
# Tables without repeated keys

A table is a list of entries, so nothing about its type keeps a key from standing in it
twice.  Writing does: it writes under the keys that are there and appends the others.  In a
table whose keys are distinct, what is found under a key is what stands there.

Tables are often built by writing the entries of others one after the other.  What is found in
the end depends on how an entry is written: the first under a key may stay, each may be
made into what is there already, or all may be collected.
-/

namespace UtilityCss
namespace Keyed

variable {α : Type}

/-- No key stands in the table twice. -/
def Distinct (entries : List (Text × α)) : Prop := (keys entries).Nodup

instance (entries : List (Text × α)) : Decidable (Distinct entries) :=
  inferInstanceAs (Decidable (keys entries).Nodup)

theorem distinct_nil : Distinct ([] : List (Text × α)) := List.nodup_nil

theorem lookup_eq_none_iff_not_mem_keys {key : Text} {entries : List (Text × α)} :
    entries.lookup key = none ↔ key ∉ keys entries := by
  rw [List.lookup_eq_none_iff, keys, List.mem_map]
  constructor
  · rintro h ⟨entry, hentry, rfl⟩
    exact absurd (h entry hentry) (by simp)
  · intro h entry hentry
    exact bne_iff_ne.mpr fun he => h ⟨entry, hentry, he.symm⟩

theorem has_iff_mem_keys {key : Text} {entries : List (Text × α)} :
    has key entries ↔ key ∈ keys entries := by
  rw [has, Option.isSome_iff_ne_none, ne_eq, lookup_eq_none_iff_not_mem_keys, not_not]

/-- Writing under a key keeps the keys distinct. -/
theorem Distinct.put {entries : List (Text × α)} (h : Distinct entries) (key : Text)
    (value : α) : Distinct (put key value entries) := by
  unfold Distinct
  rw [keys_put]
  by_cases hmem : key ∈ keys entries
  · rw [if_pos hmem]
    exact h
  · rw [if_neg hmem, List.nodup_append]
    refine ⟨h, by simp, ?_⟩
    intro a ha b hb hab
    rw [List.mem_singleton.mp hb] at hab
    exact hmem (hab ▸ ha)

/-- A key that is not there is written at the end. -/
theorem put_eq_append {key : Text} (value : α) {entries : List (Text × α)}
    (h : entries.lookup key = none) : put key value entries = entries ++ [(key, value)] := by
  induction entries with
  | nil => rfl
  | cons entry rest ih =>
    obtain ⟨k, v⟩ := entry
    rw [lookup_eq_none_iff_not_mem_keys] at h
    have hne : ¬ k = key := by
      rintro rfl
      exact h List.mem_cons_self
    have hrest : rest.lookup key = none := by
      rw [lookup_eq_none_iff_not_mem_keys]
      intro hmem
      exact h (List.mem_cons_of_mem _ hmem)
    rw [put, if_neg hne, ih hrest]
    rfl

theorem put_ne_nil (key : Text) (value : α) (entries : List (Text × α)) :
    put key value entries ≠ [] := by
  cases entries with
  | nil => simp [put]
  | cons entry rest =>
    rw [put]
    split <;> simp

/-! ## Reading and writing -/

variable {key other : Text} {u v : α} {entries : List (Text × α)}

theorem put_put (key : Text) (u v : α) (entries : List (Text × α)) :
    put key v (put key u entries) = put key v entries := by
  induction entries with
  | nil => simp [put]
  | cons entry rest ih =>
    obtain ⟨k, w⟩ := entry
    by_cases hk : k = key
    · simp [put, hk]
    · simp [put, hk, ih]

/-- What is written in place may be written before or after anything else. -/
theorem put_comm (hne : key ≠ other) (hkey : entries.lookup key ≠ none) (u v : α) :
    put key u (put other v entries) = put other v (put key u entries) := by
  induction entries with
  | nil => exact absurd rfl hkey
  | cons entry rest ih =>
    obtain ⟨k, w⟩ := entry
    by_cases hk : k = key
    · subst hk
      simp [put, hne]
    · have hrest : rest.lookup key ≠ none := by
        rwa [List.lookup_cons, beq_false_of_ne (Ne.symm hk)] at hkey
      by_cases hl : k = other
      · simp [put, hl, Ne.symm hne]
      · simp [put, hk, hl, ih hrest]

theorem mem_put {entry : Text × α} (h : entry ∈ put key v entries) :
    entry = (key, v) ∨ entry ∈ entries := by
  induction entries with
  | nil => exact Or.inl (List.mem_singleton.mp h)
  | cons e rest ih =>
    obtain ⟨k, w⟩ := e
    rw [put] at h
    split at h
    · rename_i hk
      rcases List.mem_cons.mp h with rfl | h
      · exact Or.inl (by rw [hk])
      · exact Or.inr (List.mem_cons_of_mem _ h)
    · rcases List.mem_cons.mp h with rfl | h
      · exact Or.inr List.mem_cons_self
      · exact (ih h).imp_right (List.mem_cons_of_mem _)

/-- Writing what is there changes nothing. -/
theorem put_eq_self (h : entries.lookup key = some v) : put key v entries = entries := by
  induction entries with
  | nil => exact absurd h (by simp)
  | cons entry rest ih =>
    obtain ⟨k, w⟩ := entry
    rw [put]
    split
    · rename_i hk
      subst hk
      rw [List.lookup_cons_self] at h
      rw [Option.some.inj h]
    · rename_i hk
      rw [List.lookup_cons, beq_false_of_ne (Ne.symm hk)] at h
      rw [ih h]

theorem lookup_of_mem (hdistinct : Distinct entries) {entry : Text × α} (h : entry ∈ entries) :
    entries.lookup entry.1 = some entry.2 := by
  obtain ⟨before, after, rfl⟩ := List.append_of_mem h
  refine List.lookup_eq_some_iff.mpr ⟨before, after, rfl, fun e he => bne_iff_ne.mpr ?_⟩
  rw [Distinct, keys, List.map_append, List.nodup_append] at hdistinct
  exact fun hkey => hdistinct.2.2 e.1 (List.mem_map_of_mem he) entry.1 (by simp) hkey.symm

theorem mem_of_lookup (h : entries.lookup key = some v) : (key, v) ∈ entries := by
  obtain ⟨before, after, rfl, -⟩ := List.lookup_eq_some_iff.mp h
  simp

theorem mem_keys_of_lookup (h : entries.lookup key = some v) : key ∈ keys entries :=
  List.mem_map.mpr ⟨(key, v), mem_of_lookup h, rfl⟩

/-! ## Tables built entry by entry -/

variable {β : Type} {c : Text}

/-- The entries with each value turned into another one. -/
def mapValues (f : α → β) (entries : List (Text × α)) : List (Text × β) :=
  entries.map fun entry => (entry.1, f entry.2)

@[simp] theorem keys_mapValues (f : α → β) (entries : List (Text × α)) :
    keys (mapValues f entries) = keys entries :=
  List.map_map

theorem lookup_mapValues (f : α → β) (entries : List (Text × α)) :
    (mapValues f entries).lookup c = (entries.lookup c).map f := by
  induction entries with
  | nil => rfl
  | cons entry rest ih =>
    rw [mapValues, List.map_cons, List.lookup_cons, List.lookup_cons]
    cases c == entry.1 with
    | true => rfl
    | false => exact ih

theorem filter_mapValues (f : α → β) (entries : List (Text × α)) :
    ((mapValues f entries).filter fun entry => entry.1 = c).map Prod.snd =
      ((entries.filter fun entry => entry.1 = c).map Prod.snd).map f := by
  rw [mapValues, List.filter_map, List.map_map, List.map_map]
  rfl

/-- Of entries that do not replace what is there, the first one under a key stays. -/
theorem lookup_foldl_define (entries : List (Text × α)) : ∀ table : List (Text × α),
    (entries.foldl (fun table entry =>
      if has entry.1 table then table else put entry.1 entry.2 table) table).lookup c =
      (table.lookup c).or (entries.lookup c) := by
  induction entries with
  | nil => exact fun table => Option.or_none.symm
  | cons entry rest ih =>
    intro table
    rw [List.foldl_cons, ih]
    by_cases hkey : c = entry.1
    · subst hkey
      rw [List.lookup_cons_self]
      cases hlookup : table.lookup entry.1 <;> simp [has, hlookup]
    · rw [List.lookup_cons, beq_false_of_ne hkey]
      split
      · rfl
      · rw [lookup_put_of_ne hkey]

/-- Where no key comes twice, what an entry makes of the value under its key stays. -/
theorem lookup_foldl_put {entries : List (Text × β)} (h : Distinct entries)
    (make : Option α → β → α) : ∀ table : List (Text × α),
    (entries.foldl (fun table entry =>
      put entry.1 (make (table.lookup entry.1) entry.2) table) table).lookup c =
      ((entries.lookup c).map (make (table.lookup c))).or (table.lookup c) := by
  induction entries with
  | nil => exact fun table => rfl
  | cons entry rest ih =>
    intro table
    obtain ⟨hentry, hrest⟩ := List.nodup_cons.mp h
    rw [List.foldl_cons, ih hrest]
    by_cases hkey : c = entry.1
    · subst hkey
      rw [lookup_eq_none_iff_not_mem_keys.mpr hentry, List.lookup_cons_self, lookup_put_self]
      rfl
    · rw [List.lookup_cons, beq_false_of_ne hkey, lookup_put_of_ne hkey]

/-- The keys of a table with the new keys of another one behind them. -/
theorem nodup_keys_append {entries : List (Text × α)} {more : List (Text × β)}
    (h : Distinct entries) (hmore : Distinct more) :
    (keys entries ++ (keys more).filter (· ∉ keys entries)).Nodup := by
  refine List.nodup_append.mpr ⟨h, List.Pairwise.filter _ hmore, fun key hkey new hnew => ?_⟩
  rintro rfl
  exact absurd hkey (by simpa using (List.mem_filter.mp hnew).2)

/-- Where nothing comes twice, dropping what came before changes nothing. -/
theorem eraseDups_eq_self : ∀ {ks : List Text}, ks.Nodup → ks.eraseDups = ks
  | [], _ => rfl
  | k :: rest, h => by
    obtain ⟨hk, hrest⟩ := List.nodup_cons.mp h
    have hothers : rest.filter (fun other => !other == k) = rest :=
      List.filter_eq_self.mpr fun other hother => by
        simpa using ne_of_mem_of_not_mem hother hk
    rw [List.eraseDups_cons, hothers, eraseDups_eq_self hrest]

/-- Of more keys without repetition those come behind that were not there. -/
theorem eraseDups_append_of_nodup (ks : List Text) {more : List Text} (h : more.Nodup) :
    (ks ++ more).eraseDups = ks.eraseDups ++ more.filter (· ∉ ks.eraseDups) := by
  have hnew : more.removeAll ks = more.filter (· ∉ ks.eraseDups) := by
    refine List.filter_congr fun key _ => ?_
    simp
  rw [List.eraseDups_append, hnew, eraseDups_eq_self (List.Pairwise.filter _ h)]

/-- What is written entry by entry has the keys that were there, and behind them the new ones where
they came first. -/
theorem keys_foldl {step : List (Text × α) → Text × β → List (Text × α)}
    (hstep : ∀ table entry, keys (step table entry) =
      if entry.1 ∈ keys table then keys table else keys table ++ [entry.1])
    (entries : List (Text × β)) : ∀ table : List (Text × α), keys (entries.foldl step table) =
      keys table ++ ((keys entries).filter (· ∉ keys table)).eraseDups := by
  induction entries with
  | nil => exact fun table => (List.append_nil _).symm
  | cons entry rest ih =>
    intro table
    have hkeys : keys (entry :: rest) = entry.1 :: keys rest := rfl
    rw [List.foldl_cons, ih, hstep, hkeys]
    by_cases hmem : entry.1 ∈ keys table
    · rw [if_pos hmem, List.filter_cons_of_neg (by simpa using hmem)]
    · have hnew : (keys rest).filter (· ∉ keys table ++ [entry.1]) =
          ((keys rest).filter (· ∉ keys table)).filter (fun other => !other == entry.1) := by
        rw [List.filter_filter]
        refine List.filter_congr fun key _ => ?_
        by_cases hkey : key = entry.1 <;> simp [hkey]
      rw [if_neg hmem, hnew, List.filter_cons_of_pos (by simpa using hmem), List.eraseDups_cons,
        List.append_assoc, List.singleton_append]

/-- In the end a key stands where it was written first. -/
theorem keys_foldl_nil {step : List (Text × α) → Text × β → List (Text × α)}
    (hstep : ∀ table entry, keys (step table entry) =
      if entry.1 ∈ keys table then keys table else keys table ++ [entry.1])
    (entries : List (Text × β)) : keys (entries.foldl step []) = (keys entries).eraseDups := by
  rw [keys_foldl hstep]
  exact congrArg List.eraseDups (List.filter_eq_self.mpr fun _ _ => by simp [keys])

/-- Where no key comes twice, writing entries adds the keys that are new, in their order. -/
theorem keys_foldl_put {entries : List (Text × β)} (h : Distinct entries)
    (make : Option α → β → α) (table : List (Text × α)) :
    keys (entries.foldl (fun table entry =>
      put entry.1 (make (table.lookup entry.1) entry.2) table) table) =
      keys table ++ (keys entries).filter (· ∉ keys table) := by
  rw [keys_foldl fun table entry => keys_put entry.1 _ table, eraseDups_eq_self]
  exact List.Pairwise.filter _ h

/-- A table that is written entry by entry has distinct keys. -/
theorem distinct_foldl {step : List (Text × α) → β → List (Text × α)}
    (hstep : ∀ table entry, Distinct table → Distinct (step table entry)) (entries : List β)
    {table : List (Text × α)} (h : Distinct table) : Distinct (entries.foldl step table) :=
  List.foldlRecOn entries step h fun table htable entry _ => hstep table entry htable

/-- Tables without repeated keys are the same if they have the same keys in the same order, and the
same under each of them. -/
theorem eq_of_keys_of_lookup : ∀ {entries entries' : List (Text × α)}, Distinct entries →
    keys entries' = keys entries → (∀ key, entries'.lookup key = entries.lookup key) →
    entries' = entries
  | [], entries', _, hkeys, _ => List.map_eq_nil_iff.mp hkeys
  | (key, value) :: rest, [], _, hkeys, _ => by cases hkeys
  | (key, value) :: rest, (key', value') :: rest', hdistinct, hkeys, hlookup => by
    obtain ⟨hkey, hrest⟩ := List.nodup_cons.mp hdistinct
    obtain ⟨rfl, hkeys'⟩ : key' = key ∧ keys rest' = keys rest := List.cons.inj hkeys
    have hvalue : value' = value := by
      have hsame := hlookup key'
      rw [List.lookup_cons_self, List.lookup_cons_self] at hsame
      exact Option.some.inj hsame
    have hlookup' : ∀ other, rest'.lookup other = rest.lookup other := by
      intro other
      by_cases hother : other = key'
      · rw [hother, lookup_eq_none_iff_not_mem_keys.mpr hkey,
          lookup_eq_none_iff_not_mem_keys.mpr (hkeys' ▸ hkey)]
      · have hsame := hlookup other
        rwa [List.lookup_cons, List.lookup_cons, beq_false_of_ne hother] at hsame
    rw [hvalue, eq_of_keys_of_lookup hrest hkeys' hlookup']

/-- In another order a table without repeated keys has the same under each of them. -/
theorem lookup_perm {entries entries' : List (Text × α)} (hdistinct : Distinct entries)
    (h : entries.Perm entries') : entries'.lookup c = entries.lookup c := by
  have hdistinct' : Distinct entries' := (h.map Prod.fst).nodup_iff.mp hdistinct
  refine Option.ext fun v => ⟨fun hv => ?_, fun hv => ?_⟩
  · exact lookup_of_mem hdistinct (h.mem_iff.mpr (mem_of_lookup hv))
  · exact lookup_of_mem hdistinct' (h.mem_iff.mp (mem_of_lookup hv))

/-- The entries in front of the first one under a key. -/
def before (key : Text) (entries : List (Text × α)) : List (Text × α) :=
  entries.takeWhile fun entry => entry.1 ≠ key

/-- The entries behind the first one under a key. -/
def behind (key : Text) (entries : List (Text × α)) : List (Text × α) :=
  (entries.dropWhile fun entry => entry.1 ≠ key).tail

/-- An entry that is written in place keeps what stands in front of it and behind it. -/
theorem put_eq_before_append_behind {key : Text} {value : α} : ∀ {entries : List (Text × α)},
    entries.lookup key = some value →
      entries = before key entries ++ (key, value) :: behind key entries ∧
        ∀ v, put key v entries = before key entries ++ (key, v) :: behind key entries
  | [], h => absurd h (by simp)
  | (k, w) :: rest, h => by
    by_cases hk : k = key
    · subst hk
      rw [List.lookup_cons_self] at h
      simp [before, behind, put, Option.some.inj h]
    · rw [List.lookup_cons, beq_false_of_ne (Ne.symm hk)] at h
      obtain ⟨hfront, hput⟩ := put_eq_before_append_behind h
      simp only [before, behind] at hfront hput
      refine ⟨?_, fun v => ?_⟩
      · simp only [before, behind, List.takeWhile_cons, List.dropWhile_cons, ne_eq, hk,
          not_false_eq_true, decide_true, if_true, List.cons_append]
        exact congrArg _ hfront
      · simp only [before, behind, List.takeWhile_cons, List.dropWhile_cons, ne_eq, hk,
          not_false_eq_true, decide_true, if_true, List.cons_append, put, if_false]
        exact congrArg _ (hput v)

/-- What stands in front of an entry or behind it is under another key, if no key is repeated. -/
theorem Distinct.mem_before_append_behind {entries : List (Text × α)} (h : Distinct entries)
    {key : Text} {value : α} (hkey : entries.lookup key = some value) {e : Text × α}
    (he : e ∈ before key entries ++ behind key entries) : e ∈ entries ∧ e.1 ≠ key := by
  obtain ⟨hsplit, -⟩ := put_eq_before_append_behind hkey
  have hmem : e ∈ (key, value) :: (before key entries ++ behind key entries) :=
    List.mem_cons_of_mem _ he
  rw [hsplit] at h ⊢
  refine ⟨List.perm_middle.mem_iff.mpr hmem, fun hsame => ?_⟩
  have hnodup : (keys ((key, value) :: (before key entries ++ behind key entries))).Nodup :=
    (List.perm_middle.map Prod.fst).nodup_iff.mp h
  have hthere : e.1 ∈ keys (before key entries ++ behind key entries) := List.mem_map_of_mem he
  rw [hsame] at hthere
  exact (List.nodup_cons.mp hnodup).1 hthere

/-- Writing a table without repeated keys entry by entry yields the table. -/
theorem ofList_eq_self {entries : List (Text × α)} (h : Distinct entries) :
    ofList entries = entries := by
  have honto : ∀ (entries table : List (Text × α)), Distinct (table ++ entries) →
      entries.foldl (fun table entry => put entry.1 entry.2 table) table = table ++ entries := by
    intro entries
    induction entries with
    | nil => exact fun table _ => (List.append_nil table).symm
    | cons entry rest ih =>
      intro table htable
      have hfresh : table.lookup entry.1 = none := by
        rw [lookup_eq_none_iff_not_mem_keys]
        intro hmem
        rw [Distinct, keys, List.map_append, List.nodup_append] at htable
        exact htable.2.2 entry.1 hmem entry.1 (by simp) rfl
      rw [List.append_cons] at htable ⊢
      rw [List.foldl_cons, put_eq_append entry.2 hfresh]
      exact ih _ htable
  exact honto entries [] h

theorem ofList_concat (entries : List (Text × α)) (entry : Text × α) :
    ofList (entries ++ [entry]) = put entry.1 entry.2 (ofList entries) := by
  rw [ofList, List.foldl_append]
  rfl

theorem distinct_ofList (entries : List (Text × α)) : Distinct (ofList entries) :=
  distinct_foldl (fun _ entry h => h.put entry.1 entry.2) entries distinct_nil

theorem mem_of_mem_ofList {entries : List (Text × α)} {e : Text × α} (h : e ∈ ofList entries) :
    e ∈ entries := by
  induction entries using List.reverseRecOn with
  | nil => exact h
  | append_singleton entries entry ih =>
    rw [ofList_concat] at h
    rcases mem_put h with rfl | h
    · exact List.mem_concat_self
    · exact List.mem_append_left _ (ih h)

/-- Of the entries that are written under a key the last one is found. -/
theorem lookup_ofList (entries : List (Text × α)) :
    (ofList entries).lookup c = entries.reverse.lookup c := by
  induction entries using List.reverseRecOn with
  | nil => rfl
  | append_singleton entries entry ih =>
    rw [ofList_concat, List.reverse_concat, List.lookup_cons]
    by_cases hkey : c = entry.1
    · rw [hkey, lookup_put_self, beq_self_eq_true]
    · rw [lookup_put_of_ne hkey, ih, beq_false_of_ne hkey]

/-- A key stands where it was written first. -/
theorem keys_ofList (entries : List (Text × α)) :
    keys (ofList entries) = (keys entries).eraseDups :=
  keys_foldl_nil (fun table entry => keys_put entry.1 entry.2 table) entries

/-- At most one entry stands under a key. -/
theorem filter_key {entries : List (Text × α)} (h : Distinct entries) :
    (entries.filter fun entry => entry.1 = c).map Prod.snd = (entries.lookup c).toList := by
  induction entries with
  | nil => rfl
  | cons entry rest ih =>
    obtain ⟨hentry, hrest⟩ := List.nodup_cons.mp h
    by_cases hkey : c = entry.1
    · subst hkey
      have hnone : rest.lookup entry.1 = none := lookup_eq_none_iff_not_mem_keys.mpr hentry
      rw [List.filter_cons_of_pos (by simp), List.map_cons, ih hrest, hnone,
        List.lookup_cons_self]
      rfl
    · rw [List.filter_cons_of_neg (by simpa using Ne.symm hkey), ih hrest, List.lookup_cons,
        beq_false_of_ne hkey]

/-- What is appended to the list under a key stands behind what was there. -/
theorem lookup_foldl_append (entries : List (Text × α)) : ∀ table : List (Text × List α),
    (entries.foldl (fun table entry =>
      put entry.1 ((table.lookup entry.1).getD [] ++ [entry.2]) table) table).lookup c =
      if (entries.filter fun entry => entry.1 = c).map Prod.snd = [] then table.lookup c
      else some ((table.lookup c).getD [] ++
        (entries.filter fun entry => entry.1 = c).map Prod.snd) := by
  induction entries with
  | nil => exact fun table => (if_pos rfl).symm
  | cons entry rest ih =>
    intro table
    rw [List.foldl_cons, ih]
    by_cases hkey : entry.1 = c
    · subst hkey
      rw [lookup_put_self, List.filter_cons_of_pos (by simp), List.map_cons,
        if_neg (List.cons_ne_nil _ _), Option.getD_some]
      split
      · rename_i hnil
        rw [hnil]
      · rw [List.append_assoc, List.singleton_append]
    · rw [List.filter_cons_of_neg (by simpa using hkey), lookup_put_of_ne (Ne.symm hkey)]

end Keyed
end UtilityCss
