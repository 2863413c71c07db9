import UtilityCss.Proofs.Config.Demand

/-!
# Categories that depend on one another in circles

A function of the theme may ask for any category, also for the one it belongs to or one whose
evaluation has led to it.  Categories that are being evaluated are marked, and asking for a marked
one has no answer.  Nothing else keeps the evaluation from going round in circles.

Here the evaluation is described as it goes, without a bound on its depth: what is kept, which
categories are marked, which ones have been begun and what functions have been told.  Along the
way, the categories that have been begun are those that are marked and those whose values are kept,
no category is among them twice, and a marked one has no value yet.  So the marked ones are never
more than the categories there are, which is why the evaluation comes to an end, and none is begun
a second time.
-/

namespace UtilityCss
namespace Resolve

/-- A path that a function of the theme has asked for, the categories that were marked then, and
what the function was told. -/
structure Lookup where
  active : List Text
  path : Text
  answer : Option Data

/-- The path leads back into a category that is being evaluated. -/
def Lookup.Reenters (l : Lookup) : Prop :=
  ∃ first rest, Path.read? l.path = some (first :: rest) ∧ first ∈ l.active

/-- How far the evaluation of categories has come. -/
structure Progress where
  /-- The values of the categories that have been evaluated. -/
  known : List (Text × Data)
  /-- The categories that are marked, the one begun last first. -/
  active : List Text
  /-- The categories whose functions have been called, once for each call. -/
  begun : List Text
  lookups : List Lookup

namespace Progress

/-- Before the first category. -/
def start : Progress := ⟨[], [], [], []⟩

/-- The evaluation of a category begins. -/
def enter (s : Progress) (name : Text) : Progress :=
  { s with active := name :: s.active, begun := name :: s.begun }

/-- The evaluation of a category ends. -/
def leave (s : Progress) (name : Text) (value : Data) : Progress :=
  { s with active := s.active.erase name, known := Keyed.put name value s.known }

/-- A function has been told something. -/
def tell (s : Progress) (l : Lookup) : Progress := { s with lookups := l :: s.lookups }

@[simp] theorem known_tell (s : Progress) (l : Lookup) : (s.tell l).known = s.known := rfl

end Progress

mutual

/-- Asking for a category: what is found, and how far the evaluation has come then. -/
inductive Asked (table : Categories) : Progress → Text → Option Data → Progress → Prop where
  | kept {s : Progress} {name : Text} {value : Data} : s.known.lookup name = some value →
    Asked table s name (some value) s
  | absent {s : Progress} {name : Text} : s.known.lookup name = none →
    table.lookup name = none → Asked table s name none s
  | reentered {s : Progress} {name : Text} {category : ThemeValue} :
    s.known.lookup name = none → table.lookup name = some category → name ∈ s.active →
    Asked table s name none s
  | evaluated {s s' : Progress} {name : Text} {category : ThemeValue} {value : Data} :
    s.known.lookup name = none → table.lookup name = some category → name ∉ s.active →
    Answered table (s.enter name) category.query value s' →
    Asked table s name (some value) (s'.leave name value)

/-- What a query comes to, and how far the evaluation has come then. -/
inductive Answered (table : Categories) : Progress → Query Data → Data → Progress → Prop where
  | answer {s : Progress} {value : Data} : Answered table s (.answer value) value s
  | pathless {s s' : Progress} {path : Text} {next : Option Data → Query Data} {value : Data} :
    (∀ first rest, Path.read? path ≠ some (first :: rest)) →
    Answered table (s.tell ⟨s.active, path, none⟩) (next none) value s' →
    Answered table s (.lookup path next) value s'
  | lookup {s s' s'' : Progress} {path first : Text} {rest : List Text}
      {next : Option Data → Query Data} {found : Option Data} {value : Data} :
    Path.read? path = some (first :: rest) → Asked table s first found s' →
    Answered table (s'.tell ⟨s.active, path, found.bind fun d => Path.walk d rest⟩)
      (next (found.bind fun d => Path.walk d rest)) value s'' →
    Answered table s (.lookup path next) value s''

end

/-- Categories are asked for one after the other: those that have a value, with their values, and
how far the evaluation has come then. -/
inductive Resolved (table : Categories) : Progress → List Text → List (Text × Data) → Progress →
    Prop where
  | done {s : Progress} : Resolved table s [] [] s
  | found {s s' s'' : Progress} {name : Text} {names : List Text} {value : Data}
      {members : List (Text × Data)} : Asked table s name (some value) s' →
    Resolved table s' names members s'' →
    Resolved table s (name :: names) ((name, value) :: members) s''
  | missing {s s' s'' : Progress} {name : Text} {names : List Text}
      {members : List (Text × Data)} : Asked table s name none s' →
    Resolved table s' names members s'' → Resolved table s (name :: names) members s''

variable {table : Categories}

/-! ## There is only one way -/

mutual

theorem Asked.unique : ∀ {s name found s'}, Asked table s name found s' →
    ∀ {found' s''}, Asked table s name found' s'' → found = found' ∧ s' = s''
  | _, _, _, _, .kept hknown, _, _, h => by
    cases h with
    | kept hknown' =>
      exact ⟨hknown.symm.trans hknown', rfl⟩
    | absent hknown' => exact absurd (hknown.symm.trans hknown') (by simp)
    | reentered hknown' => exact absurd (hknown.symm.trans hknown') (by simp)
    | evaluated hknown' => exact absurd (hknown.symm.trans hknown') (by simp)
  | _, _, _, _, .absent hknown htable, _, _, h => by
    cases h with
    | kept hknown' => exact absurd (hknown.symm.trans hknown') (by simp)
    | absent => exact ⟨rfl, rfl⟩
    | reentered => exact ⟨rfl, rfl⟩
    | evaluated _ htable' => exact absurd (htable.symm.trans htable') (by simp)
  | _, _, _, _, .reentered hknown _ hmem, _, _, h => by
    cases h with
    | kept hknown' => exact absurd (hknown.symm.trans hknown') (by simp)
    | absent => exact ⟨rfl, rfl⟩
    | reentered => exact ⟨rfl, rfl⟩
    | evaluated _ _ hmem' => exact absurd hmem hmem'
  | _, _, _, _, .evaluated hknown htable hmem hanswered, _, _, h => by
    cases h with
    | kept hknown' => exact absurd (hknown.symm.trans hknown') (by simp)
    | absent _ htable' => exact absurd (htable.symm.trans htable') (by simp)
    | reentered _ _ hmem' => exact absurd hmem' hmem
    | evaluated _ htable' _ hanswered' =>
      obtain rfl := Option.some.inj (htable.symm.trans htable')
      obtain ⟨rfl, rfl⟩ := hanswered.unique hanswered'
      exact ⟨rfl, rfl⟩

theorem Answered.unique : ∀ {s q value s'}, Answered table s q value s' →
    ∀ {value' s''}, Answered table s q value' s'' → value = value' ∧ s' = s''
  | _, _, _, _, .answer, _, _, h => by
    cases h
    exact ⟨rfl, rfl⟩
  | _, _, _, _, .pathless hpath hnext, _, _, h => by
    cases h with
    | pathless _ hnext' => exact hnext.unique hnext'
    | lookup hpath' => exact absurd hpath' (hpath _ _)
  | _, _, _, _, .lookup hpath hasked hnext, _, _, h => by
    cases h with
    | pathless hpath' => exact absurd hpath (hpath' _ _)
    | lookup hpath' hasked' hnext' =>
      cases hpath.symm.trans hpath'
      obtain ⟨rfl, rfl⟩ := hasked.unique hasked'
      exact hnext.unique hnext'

end

theorem Resolved.unique {s s' : Progress} {names : List Text} {members : List (Text × Data)}
    (h : Resolved table s names members s') : ∀ {members' : List (Text × Data)} {s'' : Progress},
    Resolved table s names members' s'' → members = members' ∧ s' = s'' := by
  induction h with
  | done =>
    rintro _ _ ⟨⟩
    exact ⟨rfl, rfl⟩
  | found hasked _ ih =>
    rintro _ _ (_ | ⟨hasked', h'⟩ | ⟨hasked', _⟩)
    · obtain ⟨hvalue, rfl⟩ := hasked.unique hasked'
      obtain rfl := Option.some.inj hvalue
      obtain ⟨rfl, rfl⟩ := ih h'
      exact ⟨rfl, rfl⟩
    · exact absurd (hasked.unique hasked').1 (by simp)
  | missing hasked _ ih =>
    rintro _ _ (_ | ⟨hasked', _⟩ | ⟨hasked', h'⟩)
    · exact absurd (hasked.unique hasked').1 (by simp)
    · obtain ⟨-, rfl⟩ := hasked.unique hasked'
      exact ih h'

/-! ## What holds along the way -/

/-- Categories that have been begun are marked or have a value, and none has been begun twice. -/
structure Sound (table : Categories) (s : Progress) : Prop where
  begun : s.begun.Perm (s.active ++ Keyed.keys s.known)
  once : s.begun.Nodup
  subset : s.begun ⊆ Keyed.keys table
  refused : ∀ l ∈ s.lookups, l.Reenters → l.answer = none

namespace Sound

variable {s s' : Progress} {name : Text}

theorem start : Sound table .start where
  begun := .nil
  once := List.nodup_nil
  subset := List.nil_subset _
  refused := fun _ h => absurd h List.not_mem_nil

/-- A marked category has no value. -/
theorem lookup_of_active (h : Sound table s) (hmem : name ∈ s.active) :
    s.known.lookup name = none := by
  rw [Keyed.lookup_eq_none_iff_not_mem_keys]
  exact fun hknown => (List.nodup_append.mp (h.begun.nodup_iff.mp h.once)).2.2 name hmem name
    hknown rfl

theorem length_active_le (h : Sound table s) : s.active.length ≤ table.length := by
  have hle : s.begun.length ≤ (Keyed.keys table).length := h.once.length_le_of_subset h.subset
  rw [h.begun.length_eq, List.length_append] at hle
  simp only [Keyed.keys, List.length_map] at hle
  omega

theorem enter (h : Sound table s) {category : ThemeValue} (hknown : s.known.lookup name = none)
    (htable : table.lookup name = some category) (hmem : name ∉ s.active) :
    Sound table (s.enter name) where
  begun := h.begun.cons name
  once := by
    have hfresh : name ∉ s.active ++ Keyed.keys s.known := by
      rw [List.mem_append, not_or]
      exact ⟨hmem, Keyed.lookup_eq_none_iff_not_mem_keys.mp hknown⟩
    exact List.nodup_cons.mpr ⟨fun hbegun => hfresh (h.begun.mem_iff.mp hbegun), h.once⟩
  subset := List.cons_subset.mpr ⟨Keyed.mem_keys_of_lookup htable, h.subset⟩
  refused := h.refused

theorem leave (h : Sound table s') (hactive : s'.active = name :: s.active) (value : Data) :
    Sound table (s'.leave name value) ∧ (s'.leave name value).active = s.active := by
  have hback : (s'.leave name value).active = s.active := by
    rw [Progress.leave, hactive]
    exact List.erase_cons_head ..
  have hname : s'.known.lookup name = none :=
    h.lookup_of_active (hactive ▸ List.mem_cons_self)
  refine ⟨⟨?_, h.once, h.subset, h.refused⟩, hback⟩
  rw [hback]
  have hkeys : Keyed.keys (s'.leave name value).known = Keyed.keys s'.known ++ [name] := by
    rw [Progress.leave, Keyed.keys_put,
      if_neg (Keyed.lookup_eq_none_iff_not_mem_keys.mp hname)]
  rw [hkeys, ← List.append_assoc]
  exact (hactive ▸ h.begun).trans (List.perm_append_singleton _ _).symm

theorem tell (h : Sound table s) {l : Lookup} (hl : l.Reenters → l.answer = none) :
    Sound table (s.tell l) :=
  { h with refused := List.forall_mem_cons.mpr ⟨hl, h.refused⟩ }

end Sound

/-- Asking for a marked category has no answer. -/
theorem Asked.eq_none {s s' : Progress} {name : Text} {found : Option Data}
    (h : Asked table s name found s') (hs : Sound table s) (hmem : name ∈ s.active) :
    found = none := by
  cases h with
  | kept hknown => exact absurd (hknown.symm.trans (hs.lookup_of_active hmem)) (by simp)
  | absent => rfl
  | reentered => rfl
  | evaluated _ _ hmem' => exact absurd hmem hmem'

/-- What a function is told through a marked category is nothing. -/
theorem Sound.told {s s' : Progress} {path first : Text} {rest : List Text} {found : Option Data}
    (hs' : Sound table s') (hs : Sound table s) (hpath : Path.read? path = some (first :: rest))
    (hasked : Asked table s first found s') :
    Sound table (s'.tell ⟨s.active, path, found.bind fun d => Path.walk d rest⟩) := by
  refine hs'.tell ?_
  rintro ⟨first', rest', hpath', hmem⟩
  cases hpath.symm.trans hpath'
  rw [hasked.eq_none hs hmem, Option.bind_none]

mutual

/-- Asking for a category leaves the marks as they were. -/
theorem Asked.sound : ∀ {s name found s'}, Asked table s name found s' → Sound table s →
    Sound table s' ∧ s'.active = s.active
  | _, _, _, _, .kept _, hs => ⟨hs, rfl⟩
  | _, _, _, _, .absent _ _, hs => ⟨hs, rfl⟩
  | _, _, _, _, .reentered _ _ _, hs => ⟨hs, rfl⟩
  | _, _, _, _, .evaluated hknown htable hmem hanswered, hs => by
    obtain ⟨hs', hactive⟩ := hanswered.sound (hs.enter hknown htable hmem)
    exact hs'.leave hactive _

/-- So does the evaluation of a query. -/
theorem Answered.sound : ∀ {s q value s'}, Answered table s q value s' → Sound table s →
    Sound table s' ∧ s'.active = s.active
  | _, _, _, _, .answer, hs => ⟨hs, rfl⟩
  | _, _, _, _, .pathless _ hnext, hs => hnext.sound (hs.tell fun _ => rfl)
  | _, _, _, _, .lookup hpath hasked hnext, hs => by
    obtain ⟨hs', hactive⟩ := hasked.sound hs
    obtain ⟨hs'', hactive'⟩ := hnext.sound (hs'.told hs hpath hasked)
    exact ⟨hs'', hactive'.trans hactive⟩

end

theorem Resolved.sound {s s' : Progress} {names : List Text} {members : List (Text × Data)}
    (h : Resolved table s names members s') : Sound table s →
    Sound table s' ∧ s'.active = s.active := by
  induction h with
  | done => exact fun hs => ⟨hs, rfl⟩
  | found hasked _ ih | missing hasked _ ih =>
    intro hs
    obtain ⟨hs', hactive⟩ := hasked.sound hs
    obtain ⟨hs'', hactive'⟩ := ih hs'
    exact ⟨hs'', hactive'.trans hactive⟩

/-! ## The evaluation comes to an end -/

/-- A query comes to an end if asking for categories does. -/
theorem exists_answered {fuel : Nat} {active : List Text}
    (h : ∀ s name, Sound table s → s.active = active →
      ∃ s', Asked table s name (value? table fuel active name s.known).1 s' ∧
        s'.known = (value? table fuel active name s.known).2) :
    ∀ (q : Query Data) (s : Progress), Sound table s → s.active = active →
      ∃ s', Answered table s q (q.run (ask table fuel active) s.known).1 s' ∧
        s'.known = (q.run (ask table fuel active) s.known).2
  | .answer _, s, _, _ => ⟨s, .answer, rfl⟩
  | .lookup path next, s, hs, hactive => by
    have hrun : (Query.lookup path next).run (ask table fuel active) s.known =
        (next (ask table fuel active path s.known).1).run (ask table fuel active)
          (ask table fuel active path s.known).2 := rfl
    rw [hrun, ask]
    split
    · rename_i first rest hpath
      obtain ⟨s', hasked, hknown⟩ := h s first hs hactive
      obtain ⟨hs', hactive'⟩ := hasked.sound hs
      obtain ⟨s'', hnext, hknown'⟩ := exists_answered h (next _) _ (hs'.told hs hpath hasked)
        (hactive'.trans hactive)
      rw [Progress.known_tell, hknown] at hnext hknown'
      exact ⟨s'', .lookup hpath hasked hnext, hknown'⟩
    · rename_i hpath
      obtain ⟨s', hnext, hknown⟩ := exists_answered h (next none)
        (s.tell ⟨s.active, path, none⟩) (hs.tell fun _ => rfl) hactive
      exact ⟨s', .pathless hpath hnext, hknown⟩

/-- Asking for a category comes to an end, with the value that it has on demand. -/
theorem exists_asked : ∀ (fuel : Nat) (s : Progress) (name : Text), Sound table s →
    table.length < fuel + s.active.length →
    ∃ s', Asked table s name (value? table fuel s.active name s.known).1 s' ∧
      s'.known = (value? table fuel s.active name s.known).2
  | 0, s, _, hs, hdepth => absurd hs.length_active_le (by omega)
  | fuel + 1, s, name, hs, hdepth => by
    generalize hresult : value? table (fuel + 1) s.active name s.known = result
    cases outcome_of_value? hresult with
    | kept hknown => exact ⟨s, .kept hknown, rfl⟩
    | absent hknown htable => exact ⟨s, .absent hknown htable, rfl⟩
    | circular htable hmem =>
      exact ⟨s, .reentered (hs.lookup_of_active hmem) htable hmem, rfl⟩
    | @evaluated category value known' hknown htable hmem hrun =>
      have hdeeper : ∀ s' other, Sound table s' → s'.active = name :: s.active →
          ∃ s'', Asked table s' other (value? table fuel (name :: s.active) other s'.known).1 s'' ∧
            s''.known = (value? table fuel (name :: s.active) other s'.known).2 := by
        intro s' other hs' hactive
        rw [← hactive]
        refine exists_asked fuel s' other hs' ?_
        rw [hactive, List.length_cons]
        omega
      obtain ⟨s', hanswered, hknown'⟩ := exists_answered hdeeper category.query (s.enter name)
        (hs.enter hknown htable hmem) rfl
      have hrun' : category.query.run (ask table fuel (name :: s.active)) (s.enter name).known =
        (value, known') := hrun
      rw [hrun'] at hanswered hknown'
      refine ⟨s'.leave name value, .evaluated hknown htable hmem hanswered, ?_⟩
      rw [Progress.leave, hknown']

/-- Asking for categories one after the other comes to an end, with the values of the theme. -/
theorem exists_resolved : ∀ (names : List Text) (s : Progress), Sound table s → s.active = [] →
    ∃ s', Resolved table s names (values table names s.known) s' ∧
      s'.known = keptAfter table names s.known
  | [], s, _, _ => ⟨s, .done, rfl⟩
  | name :: rest, s, hs, hactive => by
    have hdepth : table.length < table.length + 1 + s.active.length := by omega
    obtain ⟨s', hasked, hknown⟩ := exists_asked (table.length + 1) s name hs hdepth
    obtain ⟨hs', hactive'⟩ := hasked.sound hs
    obtain ⟨s'', hresolved, hknown'⟩ := exists_resolved rest s' hs' (hactive'.trans hactive)
    rw [hactive] at hasked hknown
    rw [hknown] at hresolved hknown'
    refine ⟨s'', ?_, hknown'⟩
    rw [values]
    split
    · rename_i value known' hvalue
      rw [hvalue] at hasked hresolved
      exact .found hasked hresolved
    · rename_i known' hvalue
      rw [hvalue] at hasked hresolved
      exact .missing hasked hresolved

/-! ## The theme of merged categories -/

/-- Every category that is there has a value. -/
theorem Resolved.keys_members {s s' : Progress} {names : List Text}
    {members : List (Text × Data)} (h : Resolved table s names members s') (hs : Sound table s)
    (hactive : s.active = []) (hnames : ∀ name ∈ names, table.lookup name ≠ none) :
    Keyed.keys members = names := by
  induction h with
  | done => rfl
  | found hasked _ ih =>
    obtain ⟨hs', hactive'⟩ := hasked.sound hs
    exact congrArg _ (ih hs' (hactive'.trans hactive)
      fun name hname => hnames name (List.mem_cons_of_mem _ hname))
  | missing hasked _ _ =>
    cases hasked with
    | absent _ htable => exact absurd htable (hnames _ List.mem_cons_self)
    | reentered _ _ hmem => exact absurd (hactive ▸ hmem) List.not_mem_nil

/-- Whatever functions of the theme ask for, the categories of the layers are evaluated in exactly
one way, and that comes to an end.  The theme has the categories that have been merged, in their
order, each of them has been evaluated exactly once, no category is left marked, and whoever asked
for one that was being evaluated has been told nothing. -/
theorem resolve_circular (layers : List Layer) :
    let table := categories layers
    ∃ members final, Resolved table .start (Keyed.keys table) members final ∧
      (∀ members' final', Resolved table .start (Keyed.keys table) members' final' →
        members' = members ∧ final' = final) ∧
      (ofLayers layers).theme = .object members ∧ Keyed.keys members = Keyed.keys table ∧
      (Keyed.keys table).Nodup ∧ final.begun.Perm (Keyed.keys table) ∧ final.active = [] ∧
      ∀ l ∈ final.lookups, l.Reenters → l.answer = none := by
  intro table
  obtain ⟨final, hresolved, hknown⟩ := exists_resolved (Keyed.keys table) .start .start rfl
  obtain ⟨hsound, hactive⟩ : Sound table final ∧ final.active = [] := hresolved.sound .start
  have hnames : ∀ name ∈ Keyed.keys table, table.lookup name ≠ none := fun name hname hnone =>
    Keyed.lookup_eq_none_iff_not_mem_keys.mp hnone hname
  have hbegun : ∀ name, name ∈ final.begun ↔ name ∈ Keyed.keys table := by
    intro name
    refine ⟨fun hname => hsound.subset hname, fun hname => hsound.begun.mem_iff.mpr ?_⟩
    rw [hactive, List.nil_append, hknown]
    obtain ⟨category, htable⟩ := Option.ne_none_iff_exists'.mp (hnames name hname)
    by_contra hnone
    exact keptAfter_ne_none htable _ hname (Keyed.lookup_eq_none_iff_not_mem_keys.mpr hnone)
  refine ⟨_, final, hresolved, fun members' final' h => ?_, rfl,
    hresolved.keys_members .start rfl hnames, distinct_categories layers, ?_, hactive,
    hsound.refused⟩
  · obtain ⟨rfl, rfl⟩ := h.unique hresolved
    exact ⟨rfl, rfl⟩
  · exact (List.perm_ext_iff_of_nodup hsound.once (distinct_categories layers)).mpr hbegun

/-- A function that asks for its own category through another one is told nothing in the end. -/
example :
    let first : ThemeValue := .computed (.theme "second")
    let second : ThemeValue := .computed (.themeOr "first" (.text "there"))
    (ofLayers [{ theme := [("first", first), ("second", second)] }]).theme =
      .object [("first", .text "there"), ("second", .text "there")] := by
  decide

end Resolve
end UtilityCss
