import Mathlib.Logic.Relation
import Mathlib.Data.List.Nodup
import UtilityCss.Proofs.Config.Pieces

/-!
# Categories on demand

Categories are evaluated when somebody asks for them, and what they come to is kept.  Three
things could go wrong: the depth could run out, a category could be asked for while it is being
evaluated, and a value could be kept that was computed from such a missing answer.

None of them happens where categories do not depend on one another in a circle.  Every category
under evaluation depends on the one that is asked for now, so that one is not among them; they
are different categories, so there are no more of them than the table has; and then every
answer is the one that a fixed theme gives, by induction on the depth.

The theme is fixed in advance: it may be the one that comes out in the end, or that of another
table that has the same categories.  All that is asked of it is that it agrees with the values
that are kept and that come from its own answers.
-/

namespace UtilityCss
namespace Resolve

/-- The value at a path: a category by the first segment, and in it what the rest leads to. -/
def answerIn (category? : Text → Option Data) (path : Text) : Option Data :=
  match Path.read? path with
  | some (first :: rest) => (category? first).bind fun d => Path.walk d rest
  | _ => none

/-- What a path is answered while `active` are being evaluated. -/
def ask (table : Categories) (fuel : Nat) (active : List Text) (path : Text)
    (known : List (Text × Data)) : Option Data × List (Text × Data) :=
  match Path.read? path with
  | some (first :: rest) =>
    let (found, known) := value? table fuel active first known
    (found.bind fun d => Path.walk d rest, known)
  | _ => (none, known)

/-- The ways in which asking for a category ends. -/
inductive Outcome (table : Categories) (fuel : Nat) (active : List Text) (name : Text)
    (known : List (Text × Data)) : Option Data × List (Text × Data) → Prop where
  | kept {value : Data} : known.lookup name = some value →
    Outcome table fuel active name known (some value, known)
  | absent : known.lookup name = none → table.lookup name = none →
    Outcome table fuel active name known (none, known)
  | circular {category : ThemeValue} : table.lookup name = some category → name ∈ active →
    Outcome table fuel active name known (none, known)
  | evaluated {category : ThemeValue} {value : Data} {known' : List (Text × Data)} :
    known.lookup name = none → table.lookup name = some category → name ∉ active →
    category.query.run (ask table fuel (name :: active)) known = (value, known') →
    Outcome table fuel active name known (some value, Keyed.put name value known')

theorem outcome_of_value? {table : Categories} {fuel : Nat} {active : List Text} {name : Text}
    {known : List (Text × Data)} {result : Option Data × List (Text × Data)}
    (h : value? table (fuel + 1) active name known = result) :
    Outcome table fuel active name known result := by
  subst h
  unfold value?
  split <;> rename_i hknown
  · exact .kept hknown
  split <;> rename_i htable
  · exact .absent hknown htable
  split <;> rename_i hactive
  · exact .circular htable hactive
  · exact .evaluated hknown htable hactive rfl

/-! ## What is kept stays -/

variable {table : Categories} {active : List Text} {known known' known'' : List (Text × Data)}

/-- Values have been added for categories that were not being evaluated. -/
structure Grown (table : Categories) (active : List Text) (known known' : List (Text × Data)) :
    Prop where
  kept : ∀ {c x}, known.lookup c = some x → known'.lookup c = some x
  active : ∀ c ∈ active, known'.lookup c = known.lookup c
  absent : ∀ {c}, table.lookup c = none → known'.lookup c = known.lookup c

namespace Grown

theorem refl : Grown table active known known := ⟨id, fun _ _ => rfl, fun _ => rfl⟩

theorem trans (h : Grown table active known known') (h' : Grown table active known' known'') :
    Grown table active known known'' where
  kept := fun hx => h'.kept (h.kept hx)
  active := fun c hc => (h'.active c hc).trans (h.active c hc)
  absent := fun hc => (h'.absent hc).trans (h.absent hc)

/-- Keeping the value of a category when the evaluation of it ends. -/
theorem put {name : Text} {value : Data} {category : ThemeValue}
    (h : Grown table (name :: active) known known') (hknown : known.lookup name = none)
    (htable : table.lookup name = some category) (hactive : name ∉ active) :
    Grown table active known (Keyed.put name value known') := by
  have hother : ∀ {c}, c ≠ name →
      (Keyed.put name value known').lookup c = known'.lookup c :=
    fun hne => Keyed.lookup_put_of_ne hne _ _
  refine ⟨fun {c x} hx => ?_, fun c hc => ?_, fun {c} hc => ?_⟩
  · rw [hother (by rintro rfl; exact absurd (hknown.symm.trans hx) (by simp))]
    exact h.kept hx
  · rw [hother (by rintro rfl; exact hactive hc)]
    exact h.active c (List.mem_cons_of_mem _ hc)
  · rw [hother (by rintro rfl; exact absurd (htable.symm.trans hc) (by simp))]
    exact h.absent hc

end Grown

theorem grown_run {α : Type}
    {answerTo : Text → List (Text × Data) → Option Data × List (Text × Data)}
    (hstep : ∀ path known, Grown table active known (answerTo path known).2) :
    ∀ (q : Query α) (known : List (Text × Data)),
      Grown table active known (q.run answerTo known).2
  | .answer _, _ => .refl
  | .lookup path next, known => (hstep path known).trans (grown_run hstep (next _) _)

theorem grown_ask {fuel : Nat}
    (h : ∀ first known, Grown table active known (value? table fuel active first known).2)
    (path : Text) (known : List (Text × Data)) :
    Grown table active known (ask table fuel active path known).2 := by
  unfold ask
  split
  · exact h _ known
  · exact .refl

theorem grown_value? : ∀ (fuel : Nat) (active : List Text) (name : Text)
    (known : List (Text × Data)), Grown table active known (value? table fuel active name known).2
  | 0, _, _, _ => .refl
  | fuel + 1, active, name, known => by
    generalize hresult : value? table (fuel + 1) active name known = result
    cases outcome_of_value? hresult with
    | kept => exact .refl
    | absent => exact .refl
    | circular => exact .refl
    | @evaluated category value known' hknown htable hactive hrun =>
      have hask := grown_ask (grown_value? fuel (name :: active))
      have hgrown := grown_run hask category.query known
      rw [hrun] at hgrown
      exact hgrown.put hknown htable hactive

/-- A value that is found is kept. -/
theorem lookup_value? {fuel : Nat} {name : Text} {value : Data}
    (h : value? table fuel active name known = (some value, known')) :
    known'.lookup name = some value := by
  cases fuel with
  | zero => exact absurd (congrArg Prod.fst h) (by simp [value?])
  | succ fuel =>
    cases outcome_of_value? h with
    | kept hknown => exact hknown
    | evaluated => exact Keyed.lookup_put_self _ _ _

/-! ## Answers of a fixed theme -/

/-- With the answers of a theme, the category asks for a path that begins with the other. -/
def Depends (table : Categories) (category? : Text → Option Data) (c other : Text) : Prop :=
  ∃ category, table.lookup c = some category ∧
    ∃ path rest, category.query.Asks (answerIn category?) path ∧
      Path.read? path = some (other :: rest)

/-- Every value is what the category comes to with the answers of the theme. -/
def Justified (table : Categories) (category? : Text → Option Data)
    (known : List (Text × Data)) : Prop :=
  ∀ c x, known.lookup c = some x → ∃ category, table.lookup c = some category ∧
    x = category.query.answerFrom (answerIn category?)

/-- The theme has the values that come from its own answers. -/
def Agrees (table : Categories) (category? : Text → Option Data)
    (known : List (Text × Data)) : Prop :=
  ∀ c x category, known.lookup c = some x → table.lookup c = some category →
    x = category.query.answerFrom (answerIn category?) → category? c = some x

variable {category? : Text → Option Data}

theorem Agrees.of_grown (h : Agrees table category? known')
    (hgrown : Grown table active known known') : Agrees table category? known :=
  fun c x category hx => h c x category (hgrown.kept hx)

/-- Agreement with what is kept is agreement with what was kept before. -/
theorem Agrees.of_put {name : Text} {value : Data}
    (h : Agrees table category? (Keyed.put name value known)) (hname : known.lookup name = none) :
    Agrees table category? known := by
  intro c x category hx
  have hne : c ≠ name := by
    rintro rfl
    exact absurd (hname.symm.trans hx) (by simp)
  exact h c x category ((Keyed.lookup_put_of_ne hne value known).trans hx)

theorem Justified.eq_some (h : Justified table category? known)
    (hagrees : Agrees table category? known) {c : Text} {x : Data}
    (hx : known.lookup c = some x) : category? c = some x := by
  obtain ⟨category, htable, hvalue⟩ := h c x hx
  exact hagrees c x category hx htable hvalue

theorem Justified.nil : Justified table category? [] := fun _ _ h => absurd h (by simp)

theorem Justified.put (h : Justified table category? known) {name : Text} {value : Data}
    {category : ThemeValue} (htable : table.lookup name = some category)
    (hvalue : value = category.query.answerFrom (answerIn category?)) :
    Justified table category? (Keyed.put name value known) := by
  intro c x hx
  by_cases hc : c = name
  · subst hc
    rw [Keyed.lookup_put_self] at hx
    rw [← Option.some.inj hx]
    exact ⟨category, htable, hvalue⟩
  · rw [Keyed.lookup_put_of_ne hc] at hx
    exact h c x hx

/-- The answer is that of the theme, and nothing is kept that does not come from such answers. -/
def Faithful (table : Categories) (category? : Text → Option Data) (expected : Option Data)
    (known : List (Text × Data)) (result : Option Data × List (Text × Data)) : Prop :=
  Justified table category? known → Agrees table category? result.2 →
    result.1 = expected ∧ Justified table category? result.2

theorem ask_faithful {fuel : Nat} {path : Text}
    (h : ∀ first rest, Path.read? path = some (first :: rest) →
      Faithful table category? (category? first) known (value? table fuel active first known)) :
    Faithful table category? (answerIn category? path) known
      (ask table fuel active path known) := by
  unfold Faithful ask answerIn
  split
  · rename_i first rest hpath
    intro hjustified hagrees
    obtain ⟨hvalue, hjustified'⟩ := h first rest hpath hjustified hagrees
    exact ⟨congrArg (fun found : Option Data => found.bind fun d => Path.walk d rest) hvalue,
      hjustified'⟩
  · exact fun hjustified _ => ⟨rfl, hjustified⟩

/-- A query whose questions are answered faithfully comes to what it does with the answers of
the theme. -/
theorem run_faithful {α : Type}
    {answerTo : Text → List (Text × Data) → Option Data × List (Text × Data)}
    (hgrown : ∀ path known, Grown table active known (answerTo path known).2) :
    ∀ (q : Query α) (known : List (Text × Data)),
      (∀ path, q.Asks (answerIn category?) path → ∀ known,
        Faithful table category? (answerIn category? path) known (answerTo path known)) →
      Justified table category? known → Agrees table category? (q.run answerTo known).2 →
      (q.run answerTo known).1 = q.answerFrom (answerIn category?) ∧
        Justified table category? (q.run answerTo known).2
  | .answer _, _, _, hjustified, _ => ⟨rfl, hjustified⟩
  | .lookup path next, known, hfaithful, hjustified, hagrees => by
    have hstep : (Query.lookup path next).run answerTo known =
        (next (answerTo path known).1).run answerTo (answerTo path known).2 := rfl
    rw [hstep] at hagrees ⊢
    obtain ⟨hanswer, hjustified'⟩ := hfaithful path .now known hjustified
      (hagrees.of_grown (grown_run hgrown _ _))
    rw [hanswer] at hagrees ⊢
    exact run_faithful hgrown (next (answerIn category? path)) _
      (fun other hasks => hfaithful other (.later hasks)) hjustified' hagrees

/-- The category may be asked for: the categories under evaluation are so few that there is depth
left for it, and all of them depend on it. -/
structure Pending (table : Categories) (category? : Text → Option Data) (fuel : Nat)
    (active : List Text) (name : Text) : Prop where
  nodup : active.Nodup
  subset : active ⊆ Keyed.keys table
  depth : table.length < fuel + active.length
  depends : ∀ a ∈ active, Relation.TransGen (Depends table category?) a name

namespace Pending

variable {fuel : Nat} {name : Text}

theorem start : Pending table category? (table.length + 1) [] name :=
  ⟨List.nodup_nil, List.nil_subset _, by simp, fun _ ha => absurd ha List.not_mem_nil⟩

/-- There is depth left. -/
theorem fuel_ne_zero (h : Pending table category? fuel active name) : fuel ≠ 0 := by
  rintro rfl
  have hlength : active.length ≤ (Keyed.keys table).length := h.nodup.length_le_of_subset h.subset
  have hdepth := h.depth
  rw [Keyed.keys, List.length_map] at hlength
  omega

/-- What is asked for by a category that may be asked for may be asked for. -/
theorem step (h : Pending table category? (fuel + 1) active name) {category : ThemeValue}
    (htable : table.lookup name = some category) (hmem : name ∉ active) {path first : Text}
    {rest : List Text} (hasks : category.query.Asks (answerIn category?) path)
    (hpath : Path.read? path = some (first :: rest)) :
    Pending table category? fuel (name :: active) first where
  nodup := List.nodup_cons.mpr ⟨hmem, h.nodup⟩
  subset := List.cons_subset.mpr ⟨Keyed.mem_keys_of_lookup htable, h.subset⟩
  depth := by
    have hdepth := h.depth
    rw [List.length_cons]
    omega
  depends := by
    have hdepends : Depends table category? name first :=
      ⟨category, htable, path, rest, hasks, hpath⟩
    -- what waits for the category waits for what it asks for as well
    rintro a (_ | ⟨_, ha⟩)
    · exact .single hdepends
    · exact (h.depends a ha).tail hdepends

end Pending

section

open Relation

variable (hacyclic : ∀ c, ¬ TransGen (Depends table category?) c c)
  (habsent : ∀ c, table.lookup c = none → category? c = none)

include hacyclic habsent

/-- Asking for a category gives what the theme has. -/
theorem value?_faithful : ∀ (fuel : Nat) (active : List Text) (name : Text)
    (known : List (Text × Data)), Pending table category? fuel active name →
    Faithful table category? (category? name) known (value? table fuel active name known)
  | 0, active, name, known, hpending => absurd rfl hpending.fuel_ne_zero
  | fuel + 1, active, name, known, hpending => by
    intro hjustified hagrees
    generalize hresult : value? table (fuel + 1) active name known = result at hagrees ⊢
    cases outcome_of_value? hresult with
    | kept hknown => exact ⟨(hjustified.eq_some hagrees hknown).symm, hjustified⟩
    | absent _ htable => exact ⟨(habsent name htable).symm, hjustified⟩
    | circular _ hmem => exact absurd (hpending.depends name hmem) (hacyclic name)
    | @evaluated category value known' hknown htable hmem hrun =>
      have hask := grown_ask (@grown_value? table fuel (name :: active))
      have hquestions : ∀ path, category.query.Asks (answerIn category?) path → ∀ known,
          Faithful table category? (answerIn category? path) known
            (ask table fuel (name :: active) path known) := by
        intro path hasks known
        refine ask_faithful fun first rest hpath => ?_
        exact value?_faithful fuel (name :: active) first known
          (hpending.step htable hmem hasks hpath)
      have hgrown := grown_run hask category.query known
      have hrun' := run_faithful hask category.query known hquestions hjustified
      rw [hrun] at hgrown hrun'
      have hname : known'.lookup name = none :=
        (hgrown.active name List.mem_cons_self).trans hknown
      obtain ⟨hvalue, hjustified'⟩ := hrun' (hagrees.of_put hname)
      refine ⟨?_, hjustified'.put htable hvalue⟩
      exact (hagrees name value category (Keyed.lookup_put_self _ _ _) htable hvalue).symm

end

/-! ## All categories of a table -/

/-- What is kept when categories have been evaluated one after the other. -/
def keptAfter (table : Categories) : List Text → List (Text × Data) → List (Text × Data)
  | [], known => known
  | name :: rest, known => keptAfter table rest (value? table (table.length + 1) [] name known).2

theorem grown_keptAfter : ∀ (names : List Text) (known : List (Text × Data)),
    Grown table [] known (keptAfter table names known)
  | [], _ => .refl
  | _ :: rest, _ => (grown_value? _ _ _ _).trans (grown_keptAfter rest _)

/-- Nothing but a name that is no category has no value. -/
theorem value?_eq_none {name : Text}
    (h : value? table (table.length + 1) [] name known = (none, known')) :
    known.lookup name = none ∧ table.lookup name = none ∧ known' = known := by
  cases outcome_of_value? h with
  | absent hknown htable => exact ⟨hknown, htable, rfl⟩
  | circular _ hmem => exact absurd hmem List.not_mem_nil

/-- The values of categories are those that are kept in the end. -/
theorem lookup_values (c : Text) : ∀ (names : List Text) (known : List (Text × Data)),
    (values table names known).lookup c =
      if c ∈ names then (keptAfter table names known).lookup c else none
  | [], _ => rfl
  | name :: rest, known => by
    rw [values, keptAfter]
    split <;> rename_i value known' hvalue
    · rw [hvalue, List.lookup_cons, lookup_values c rest known']
      by_cases hc : c = name
      · subst hc
        rw [beq_self_eq_true, if_pos List.mem_cons_self]
        exact ((grown_keptAfter rest known').kept (lookup_value? hvalue)).symm
      · rw [beq_false_of_ne hc]
        simp [hc]
    · obtain ⟨hknown, htable, rfl⟩ := value?_eq_none hvalue
      rw [hvalue, lookup_values c rest]
      by_cases hc : c = name
      · subst hc
        rw [(grown_keptAfter rest _).absent htable, hknown]
        simp
      · simp [hc]

/-- Categories that are evaluated have a value in the end. -/
theorem keptAfter_ne_none {name : Text} {category : ThemeValue}
    (htable : table.lookup name = some category) : ∀ {names : List Text}
      (known : List (Text × Data)), name ∈ names → (keptAfter table names known).lookup name ≠ none
  | other :: rest, known, hmem => by
    rcases List.mem_cons.mp hmem with rfl | hmem
    · rw [keptAfter]
      rcases hvalue : value? table (table.length + 1) [] name known with ⟨_ | value, known'⟩
      · exact absurd (htable.symm.trans (value?_eq_none hvalue).2.1) (by simp)
      · rw [(grown_keptAfter rest known').kept (lookup_value? hvalue)]
        simp
    · rw [keptAfter]
      exact keptAfter_ne_none htable _ hmem

/-- The theme has the values that are kept in the end. -/
theorem member?_theme (table : Categories) (c : Text) :
    (theme table).member? c = (keptAfter table (Keyed.keys table) []).lookup c := by
  show (values table (Keyed.keys table) []).lookup c = _
  rw [lookup_values]
  split <;> rename_i hmem
  · rfl
  · rw [(grown_keptAfter (Keyed.keys table) []).absent
      (Keyed.lookup_eq_none_iff_not_mem_keys.mpr hmem)]
    rfl

theorem member?_theme_of_absent {c : Text} (h : table.lookup c = none) :
    (theme table).member? c = none := by
  rw [member?_theme, (grown_keptAfter (Keyed.keys table) []).absent h]
  rfl

section

open Relation

variable (hacyclic : ∀ c, ¬ TransGen (Depends table category?) c c)
  (habsent : ∀ c, table.lookup c = none → category? c = none)

include hacyclic habsent

/-- Evaluating categories one after the other keeps what comes from the answers of the theme. -/
theorem justified_keptAfter : ∀ (names : List Text) (known : List (Text × Data)),
    Justified table category? known → Agrees table category? (keptAfter table names known) →
    Justified table category? (keptAfter table names known)
  | [], _, hjustified, _ => hjustified
  | name :: rest, known, hjustified, hagrees => by
    have hfaithful := value?_faithful hacyclic habsent (table.length + 1) [] name known .start
    refine justified_keptAfter rest _ ?_ hagrees
    exact (hfaithful hjustified (hagrees.of_grown (grown_keptAfter rest _))).2

end

end Resolve
end UtilityCss
