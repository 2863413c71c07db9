import UtilityCss.Proofs.Config.Consistency
import UtilityCss.Proofs.Theme.Walk

/-!
# What functions of the theme are told

A function of the theme that asks for a path is told the category of the first segment, as far as
it has been resolved, and in it what the other segments lead to.  In the finished theme a path is
walked from the root on, where segments may be joined with dots to the name of a category as they
may be to any other key.

So what a function is told is what the finished theme has, but a function may be told nothing where
the theme has something: behind a category with a dot in its name, which can be reached in brackets
only.
-/

namespace UtilityCss

namespace Query

variable {α σ : Type}

/-- Run from the first state, the query asks for the path when the state is the second. -/
inductive AsksIn (answerTo : Text → σ → Option Data × σ) : Query α → σ → Text → σ → Prop where
  | now {path : Text} {next : Option Data → Query α} {state : σ} :
    AsksIn answerTo (lookup path next) state path state
  | later {path other : Text} {next : Option Data → Query α} {state state' : σ} :
    AsksIn answerTo (next (answerTo path state).1) (answerTo path state).2 other state' →
    AsksIn answerTo (lookup path next) state other state'

end Query

namespace Resolve

/-! ## Answers while the theme is being resolved -/

/-- While the category is being evaluated, a function that asks for the path is told the answer:
one of the category itself, or one of a category that is asked for in between. -/
inductive Told (table : Categories) : Nat → List Text → Text → List (Text × Data) → Text →
    Option Data → Prop where
  | own {fuel : Nat} {active : List Text} {name : Text} {known state : List (Text × Data)}
      {category : ThemeValue} {path : Text} {answer : Option Data} :
    known.lookup name = none → table.lookup name = some category → name ∉ active →
    category.query.AsksIn (ask table fuel (name :: active)) known path state →
    (ask table fuel (name :: active) path state).1 = answer →
    Told table (fuel + 1) active name known path answer
  | within {fuel : Nat} {active : List Text} {name : Text} {known state : List (Text × Data)}
      {category : ThemeValue} {path other first : Text} {rest : List Text}
      {answer : Option Data} :
    known.lookup name = none → table.lookup name = some category → name ∉ active →
    category.query.AsksIn (ask table fuel (name :: active)) known other state →
    Path.read? other = some (first :: rest) →
    Told table fuel (name :: active) first state path answer →
    Told table (fuel + 1) active name known path answer

/-- While categories are evaluated one after the other, a function that asks for the path is told
the answer. -/
inductive ToldOver (table : Categories) : List Text → List (Text × Data) → Text → Option Data →
    Prop where
  | here {name : Text} {rest : List Text} {known : List (Text × Data)} {path : Text}
      {answer : Option Data} :
    Told table (table.length + 1) [] name known path answer →
    ToldOver table (name :: rest) known path answer
  | later {name : Text} {rest : List Text} {known : List (Text × Data)} {path : Text}
      {answer : Option Data} :
    ToldOver table rest (value? table (table.length + 1) [] name known).2 path answer →
    ToldOver table (name :: rest) known path answer

/-- While the theme of the layers is being resolved, a function that asks for the path is told the
answer. -/
def ToldIn (layers : List Layer) (path : Text) (answer : Option Data) : Prop :=
  ToldOver (categories layers) (Keyed.keys (categories layers)) [] path answer

section

variable {table : Categories} {category? : Text → Option Data} {active : List Text}
  {known state : List (Text × Data)}

/-- A query that is asked faithfully asks what it asks the theme for, and nothing is kept at that
time that the theme does not justify. -/
theorem asksIn_faithful {α : Type}
    {answerTo : Text → List (Text × Data) → Option Data × List (Text × Data)}
    (hgrown : ∀ path known, Grown table active known (answerTo path known).2) {q : Query α}
    {path : Text} (h : q.AsksIn answerTo known path state)
    (hfaithful : ∀ path, q.Asks (answerIn category?) path → ∀ known,
      Faithful table category? (answerIn category? path) known (answerTo path known))
    (hjustified : Justified table category? known)
    (hagrees : Agrees table category? (q.run answerTo known).2) :
    q.Asks (answerIn category?) path ∧ Justified table category? state ∧
      Agrees table category? (answerTo path state).2 := by
  induction h with
  | now => exact ⟨.now, hjustified, hagrees.of_grown (grown_run hgrown _ _)⟩
  | @later first other next state state' hlater ih =>
    have hstep : (Query.lookup first next).run answerTo state =
        (next (answerTo first state).1).run answerTo (answerTo first state).2 := rfl
    rw [hstep] at hagrees
    obtain ⟨hanswer, hjustified'⟩ := hfaithful first .now state hjustified
      (hagrees.of_grown (grown_run hgrown _ _))
    rw [hanswer] at ih hagrees
    obtain ⟨hasks, hothers⟩ := ih (fun path hasks => hfaithful path (.later hasks)) hjustified'
      hagrees
    exact ⟨.later hasks, hothers⟩

/-- The evaluation of a category keeps what its query comes to. -/
theorem value?_of_lookup {fuel : Nat} {name : Text} {category : ThemeValue}
    (hknown : known.lookup name = none) (htable : table.lookup name = some category)
    (hmem : name ∉ active) : (value? table (fuel + 1) active name known).2 =
      Keyed.put name (category.query.run (ask table fuel (name :: active)) known).1
        (category.query.run (ask table fuel (name :: active)) known).2 := by
  generalize hresult : value? table (fuel + 1) active name known = result
  cases outcome_of_value? hresult with
  | kept hkept => exact absurd (hknown.symm.trans hkept) (by simp)
  | absent _ habsent => exact absurd (htable.symm.trans habsent) (by simp)
  | circular _ hactive => exact absurd hactive hmem
  | @evaluated category' value known' _ htable' _ hrun =>
    obtain rfl := Option.some.inj (htable.symm.trans htable')
    rw [hrun]

section

open Relation

variable (hacyclic : ∀ c, ¬ TransGen (Depends table category?) c c)
  (habsent : ∀ c, table.lookup c = none → category? c = none)

include hacyclic habsent

/-- What a category asks for may be asked for, and is answered as the theme answers. -/
theorem asked {fuel : Nat} {name path : Text} {category : ThemeValue}
    (hpending : Pending table category? (fuel + 1) active name)
    (hknown : known.lookup name = none) (htable : table.lookup name = some category)
    (hmem : name ∉ active)
    (h : category.query.AsksIn (ask table fuel (name :: active)) known path state)
    (hjustified : Justified table category? known)
    (hagrees : Agrees table category? (value? table (fuel + 1) active name known).2) :
    (∀ first rest, Path.read? path = some (first :: rest) →
      Pending table category? fuel (name :: active) first) ∧
    Justified table category? state ∧
    Agrees table category? (ask table fuel (name :: active) path state).2 ∧
    (ask table fuel (name :: active) path state).1 = answerIn category? path := by
  have hfaithful : ∀ path, category.query.Asks (answerIn category?) path → ∀ known,
      Faithful table category? (answerIn category? path) known
        (ask table fuel (name :: active) path known) := by
    intro path hasks known
    refine ask_faithful fun first rest hpath => ?_
    exact value?_faithful hacyclic habsent fuel (name :: active) first known
      (hpending.step htable hmem hasks hpath)
  have hgrown := grown_ask (@grown_value? table fuel (name :: active))
  have hname : (category.query.run (ask table fuel (name :: active)) known).2.lookup name =
      none := ((grown_run hgrown category.query known).active name List.mem_cons_self).trans hknown
  rw [value?_of_lookup hknown htable hmem] at hagrees
  obtain ⟨hasks, hjustified', hagrees'⟩ :=
    asksIn_faithful hgrown h hfaithful hjustified (hagrees.of_put hname)
  exact ⟨fun first rest => hpending.step htable hmem hasks, hjustified', hagrees',
    (hfaithful path hasks state hjustified' hagrees').1⟩

/-- What a function is told is what the theme has behind the first segment of the path. -/
theorem Told.eq_answerIn {fuel : Nat} {name path : Text} {answer : Option Data}
    (h : Told table fuel active name known path answer)
    (hpending : Pending table category? fuel active name)
    (hjustified : Justified table category? known)
    (hagrees : Agrees table category? (value? table fuel active name known).2) :
    answer = answerIn category? path := by
  induction h with
  | own hknown htable hmem hasks hanswer =>
    rw [← hanswer]
    exact (asked hacyclic habsent hpending hknown htable hmem hasks hjustified hagrees).2.2.2
  | @within fuel active name known state category path other first rest answer hknown htable hmem
      hasks hother _ ih =>
    obtain ⟨hstep, hjustified', hagrees', -⟩ :=
      asked hacyclic habsent hpending hknown htable hmem hasks hjustified hagrees
    refine ih (hstep first rest hother) hjustified' ?_
    rwa [ask, hother] at hagrees'

theorem ToldOver.eq_answerIn {names : List Text} {path : Text} {answer : Option Data}
    (h : ToldOver table names known path answer) (hjustified : Justified table category? known)
    (hagrees : Agrees table category? (keptAfter table names known)) :
    answer = answerIn category? path := by
  induction h with
  | here htold =>
    exact htold.eq_answerIn hacyclic habsent .start hjustified
      (hagrees.of_grown (grown_keptAfter _ _))
  | @later name rest known path answer _ ih =>
    have hfaithful := value?_faithful hacyclic habsent (table.length + 1) [] name known .start
    exact ih (hfaithful hjustified (hagrees.of_grown (grown_keptAfter rest _))).2 hagrees

end

end

/-- While a theme without circles is being resolved, functions are told what it has behind the
first segment of a path. -/
theorem ToldIn.eq_answerIn {layers : List Layer} {path : Text} {answer : Option Data}
    (h : ToldIn layers path answer) (hacyclic : Acyclic layers (ofLayers layers).theme) :
    answer = answerIn (fun name => (ofLayers layers).theme.member? name) path :=
  ToldOver.eq_answerIn hacyclic.depends (fun _ => member?_theme_of_absent) h .nil
    (agrees_theme (categories layers))

end Resolve

/-! ## Paths into the finished theme -/

namespace Path

/-- A path has a segment. -/
theorem read?_ne_nil (t : Text) : read? t ≠ some [] := by
  unfold read?
  dsimp only
  split
  · rename_i key rest _
    cases more? rest.length rest <;> simp
  · simp

/-- A way along the segments begins with a key that several of them make. -/
def Joins (d : Data) (segments : List Text) : Prop :=
  ∃ run runs found, run ++ List.flatten runs = segments ∧ 2 ≤ run.length ∧
    Leads d (run :: runs) found

variable {members : List (Text × Data)} {first : Text} {rest : List Text}

/-- What lies behind the first segment is what the walk finds. -/
theorem walk_of_first {found : Data} (h : (members.lookup first).bind (walk · rest) = some found) :
    walk (.object members) (first :: rest) = some found := by
  rw [walk_object, List.range_succ_eq_map, List.findSome?_cons, List.take_zero, List.drop_zero,
    Text.joinWith, h]

/-- If nothing lies behind the first segment, the walk finds something just if segments may be
joined. -/
theorem isSome_walk_iff_joins (h : (members.lookup first).bind (walk · rest) = none) :
    (walk (.object members) (first :: rest)).isSome = true ↔
      Joins (.object members) (first :: rest) := by
  constructor
  · intro hsome
    obtain ⟨found, hfound⟩ := Option.isSome_iff_exists.mp hsome
    obtain ⟨runs, hruns⟩ := exists_leastWay hfound
    have hflatten := hruns.flatten
    cases hruns.leads with
    | here => exact absurd hflatten (List.cons_ne_nil _ _).symm
    | @member _ run value runs _ hrun hvalue hleads =>
      refine ⟨run, runs, found, hflatten, ?_, .member hrun hvalue hleads⟩
      obtain ⟨segment, more, rfl⟩ := List.exists_cons_of_ne_nil hrun
      cases more with
      | cons => simp
      | nil =>
        -- the walk would go on behind the first segment
        obtain ⟨rfl, rfl⟩ := List.cons.inj hflatten
        have hvalue' : members.lookup segment = some value := hvalue
        rw [hvalue', Option.bind_some] at h
        exact absurd h (Option.isSome_iff_ne_none.mp hleads.isSome_walk)
  · rintro ⟨run, runs, found, hflatten, -, hleads⟩
    have hsome := hleads.isSome_walk
    rwa [List.flatten_cons, hflatten] at hsome

/-- A key that several segments make has a dot. -/
theorem exists_dotted_of_joins {segments : List Text} (h : Joins (.object members) segments) :
    ∃ key ∈ Keyed.keys members, '.' ∈ key := by
  obtain ⟨run, runs, found, -, hlength, hleads⟩ := h
  obtain _ | ⟨-, hvalue, -⟩ := hleads
  · refine ⟨_, Keyed.mem_keys_of_lookup hvalue, ?_⟩
    match run, hlength with
    | a :: b :: more, _ => simp [Text.joinWith]

end Path

namespace Theme

open Resolve (answerIn)

variable {theme : Theme} {members : List (Text × Data)} {path : Text}
  (hroot : theme.root = .object members)

include hroot

/-- What lies behind the first segment of a path is at the path. -/
theorem get?_of_answerIn {found : Data} (h : answerIn (theme.root.member? ·) path = some found) :
    theme.get? path = some found := by
  rw [answerIn] at h
  rw [get?, hroot]
  rw [hroot] at h
  split at h
  · rename_i first rest hread
    rw [hread]
    exact Path.walk_of_first h
  · cases h

/-- If nothing does, something is at the path just if its segments may be joined. -/
theorem isSome_get?_iff_joins (h : answerIn (theme.root.member? ·) path = none) :
    (theme.get? path).isSome = true ↔
      ∃ segments, Path.read? path = some segments ∧ Path.Joins theme.root segments := by
  rw [answerIn] at h
  rw [get?, hroot]
  rw [hroot] at h
  cases hread : Path.read? path with
  | none => simp
  | some segments =>
    rw [hread] at h
    cases segments with
    | nil => exact absurd hread (Path.read?_ne_nil path)
    | cons first rest =>
      have hways : (Path.walk (.object members) (first :: rest)).isSome = true ↔
        Path.Joins (.object members) (first :: rest) := Path.isSome_walk_iff_joins h
      simpa using hways

end Theme

namespace Resolve

/-- In a theme without circles, what functions are told while it is being resolved is compared with
what the finished theme has at the same path.  What they are told is there.  They are told all that
is there if and only if, when they are told nothing, nothing lies behind a category whose name is
joined from several segments of the path; in particular if no name of a category has a dot. -/
theorem told_agrees (layers : List Layer) (hacyclic : Acyclic layers (ofLayers layers).theme)
    {path : Text} {answer : Option Data} (h : ToldIn layers path answer) :
    let theme : Theme := ⟨(ofLayers layers).theme⟩
    (∀ found, answer = some found → theme.get? path = some found) ∧
    (answer = theme.get? path ↔ (answer = none → ∀ segments, Path.read? path = some segments →
      ¬ Path.Joins theme.root segments)) ∧
    ((∀ name ∈ Keyed.keys theme.root.members, '.' ∉ name) → answer = theme.get? path) := by
  intro theme
  have hroot : theme.root = .object theme.root.members := rfl
  have hanswer : answer = answerIn (theme.root.member? ·) path := h.eq_answerIn hacyclic
  have hthere : ∀ found, answer = some found → theme.get? path = some found :=
    fun found hfound => Theme.get?_of_answerIn hroot (hanswer.symm.trans hfound)
  have hjoins : answer = theme.get? path ↔ (answer = none → ∀ segments,
      Path.read? path = some segments → ¬ Path.Joins theme.root segments) := by
    cases hcases : answer with
    | some found => exact iff_of_true (hthere found hcases).symm (fun hnone => by cases hnone)
    | none =>
      have hsome := Theme.isSome_get?_iff_joins hroot (hanswer.symm.trans hcases)
      rw [eq_comm, ← Option.not_isSome_iff_eq_none, hsome]
      simp
  refine ⟨hthere, hjoins, fun hnames => hjoins.mpr fun _ segments _ hway => ?_⟩
  obtain ⟨name, hname, hdot⟩ := Path.exists_dotted_of_joins hway
  exact hnames name hname hdot

/-- A function is told nothing about a category that is not there; before, it asks for another
function, which is told what is there under a key with a dot. -/
theorem told_agrees_within :
    let sizes : Data := .object [("2.5", .text "1")]
    let inner : ThemeValue := .computed (.lookup "s.2.5" fun found =>
      .answer (.object [("x", found.getD .null)]))
    let outer : ThemeValue := .computed (.lookup "g.x" fun found => .lookup "h" fun _ =>
      .answer (found.getD .null))
    let layers : List Layer := [{ theme := [("f", outer), ("g", inner), ("s", .data sizes)] }]
    let theme : Theme := ⟨(ofLayers layers).theme⟩
    Acyclic layers theme.root ∧
      (ToldIn layers "s.2.5" (some (.text "1")) ∧ some (.text "1") = theme.get? "s.2.5") ∧
      ToldIn layers "h" none ∧ none = theme.get? "h" := by
  intro sizes inner outer layers theme
  have hacyclic : Acyclic layers theme.root := by
    refine acyclic_of_rank (fun c => if c = "f" then 2 else if c = "g" then 1 else 0) ?_
    intro layer hlayer entry hentry path other rest hasks hread
    obtain rfl := List.mem_singleton.mp hlayer
    have hentries : entry = (['f'], outer) ∨ entry = (['g'], inner) ∨
        entry = (['s'], .data sizes) := by
      simpa using hentry
    rcases hentries with rfl | rfl | rfl
    · obtain _ | ⟨_ | ⟨⟨⟩⟩⟩ := hasks
      · cases (show some (Text.listOf ["g", "x"]) = some (other :: rest) from hread)
        decide
      · cases (show some (Text.listOf ["h"]) = some (other :: rest) from hread)
        decide
    · obtain _ | ⟨⟨⟩⟩ := hasks
      cases (show some (Text.listOf ["s", "2", "5"]) = some (other :: rest) from hread)
      decide
    · exact absurd hasks Query.not_asks_answer
  have hwithin : ToldIn layers "s.2.5" (some (.text "1")) :=
    .here (.within rfl rfl List.not_mem_nil .now rfl (.own rfl rfl (by decide) .now rfl))
  have hown : ToldIn layers "h" none :=
    .here (.own rfl rfl List.not_mem_nil (.later .now) rfl)
  exact ⟨hacyclic, ⟨hwithin, (told_agrees layers hacyclic hwithin).2.2 (by decide)⟩, hown,
    (told_agrees layers hacyclic hown).2.2 (by decide)⟩

/-- The name of a category has a dot: a function is told nothing, where the theme has something. -/
theorem told_agrees_dotted :
    let asking : ThemeValue := .computed (Query.theme "a.b.c")
    let layers : List Layer :=
      [{ theme := [("a.b", .data (.object [("c", .text "1")])), ("f", asking)] }]
    let theme : Theme := ⟨(ofLayers layers).theme⟩
    Acyclic layers theme.root ∧ ToldIn layers "a.b.c" none ∧
      theme.get? "a.b.c" = some (.text "1") := by
  intro asking layers theme
  refine ⟨acyclic_of_rank (fun c => if c = "f" then 1 else 0) ?_,
    .later (.here (.own rfl rfl List.not_mem_nil .now rfl)), by decide⟩
  intro layer hlayer entry hentry path other rest hasks hread
  obtain rfl := List.mem_singleton.mp hlayer
  have hentries : entry = (['a', '.', 'b'], .data (.object [("c", .text "1")])) ∨
      entry = (['f'], asking) := by
    simpa using hentry
  rcases hentries with rfl | rfl
  · exact absurd hasks Query.not_asks_answer
  · obtain _ | ⟨⟨⟩⟩ := hasks
    cases (show some (Text.listOf ["a", "b", "c"]) = some (other :: rest) from hread)
    decide

end Resolve
end UtilityCss
