import UtilityCss.Proofs.Evaluation.Expansion
import UtilityCss.Proofs.Evaluation.Nesting
import UtilityCss.Proofs.Evaluation.WellKeyed

/-!
# Class lists that apply one another in circles

A static utility may apply a class list that it is itself a part of.  What is evaluated then
follows neither the class list nor the trees: each level reads a text that stands in the registry.
Only the levels are counted, and where they are used up a class list that is applied stands for
nothing.

The evaluation is described here as it goes, level by level, with the number of levels that it
comes to.  It comes to an end in exactly one way, within the limit.  A class list that is dropped
leaves the entries beside it as they are, and where class lists do not refer to one another in
chains that are longer than the limit, nothing is dropped at all.
-/

namespace UtilityCss

open StyleTree (WellKeyed WellKeyedValue)

namespace Directive

/-! ## Entries beside those that are dropped -/

mutual

/-- The entries but those that apply one of the class lists, on all levels. -/
def without (dropped : Text → Bool) : List (Text × StyleValue) → List (Text × StyleValue)
  | [] => []
  | (key, value) :: rest =>
    if (applied? key value).any dropped then without dropped rest
    else (key, withoutIn dropped value) :: without dropped rest

/-- The same in a value. -/
def withoutIn (dropped : Text → Bool) : StyleValue → StyleValue
  | .tree body => .tree (without dropped body)
  | .scalar text => .scalar text
  | .list items => .list items

end

variable {env : Environment} {apply : Text → Report StyleTree} {dropped : Text → Bool}

@[simp] theorem applied?_withoutIn (key : Text) (value : StyleValue) :
    applied? key (withoutIn dropped value) = applied? key value := by
  cases value <;> rfl

theorem keys_without (entries : List (Text × StyleValue)) :
    (Keyed.keys (without dropped entries)).Sublist (Keyed.keys entries) := by
  induction entries with
  | nil => exact .slnil
  | cons entry rest ih =>
    obtain ⟨key, value⟩ := entry
    rw [without]
    split
    · exact ih.cons key
    · exact ih.cons_cons key

mutual

theorem wellKeyed_without : ∀ {entries : List (Text × StyleValue)}, WellKeyed entries →
    WellKeyed (without dropped entries)
  | [], _ => WellKeyed.nil
  | (key, value) :: rest, ⟨hkey, hvalue, hrest⟩ => by
    rw [without]
    split
    · exact wellKeyed_without hrest
    · exact ⟨fun hmem => hkey ((keys_without rest).subset hmem), wellKeyed_withoutIn hvalue,
        wellKeyed_without hrest⟩

theorem wellKeyed_withoutIn : ∀ {value : StyleValue}, WellKeyedValue value →
    WellKeyedValue (withoutIn dropped value)
  | .tree _, h => wellKeyed_without h
  | .scalar _, h | .list _, h => h

end

/-- A tree may be expanded entry by entry even if there is nothing to expand in it. -/
theorem expand_eq_expandEntries {tree : StyleTree} (h : WellKeyed tree) :
    expand env apply tree = expandEntries env apply tree [] := by
  have hentries : ∀ (entries : StyleTree) (out : StyleTree), isNeeded entries = false →
      expandEntries env apply entries out = pure (StyleTree.merge out entries) := by
    intro entries
    induction entries with
    | nil => exact fun _ _ => rfl
    | cons entry rest ih =>
      obtain ⟨key, value⟩ := entry
      intro out hneeded
      rw [isNeeded, Bool.or_eq_false_iff, Bool.or_eq_false_iff, Bool.or_eq_false_iff] at hneeded
      obtain ⟨⟨⟨happly, hscreen⟩, hvalue⟩, hrest⟩ := hneeded
      rw [expandEntries, expandEntry_of_not_needed happly hscreen hvalue, pure_bind, ih _ hrest,
        ← StyleTree.foldl_merge_entries, ← StyleTree.foldl_merge_entries ((key, value) :: rest)]
      rfl
  unfold expand
  split
  · rfl
  · rename_i hneeded
    rw [hentries tree [] (Bool.eq_false_iff.mpr hneeded), StyleTree.nil_merge h.distinct]

mutual

theorem expandEntries_without (hdropped : ∀ t, dropped t = true → apply t = pure []) :
    ∀ {entries : List (Text × StyleValue)}, WellKeyed entries → ∀ out : StyleTree,
      expandEntries env apply (without dropped entries) out = expandEntries env apply entries out
  | [], _, _ => rfl
  | (key, value) :: rest, ⟨_, hvalue, hrest⟩, out => by
    rw [without, expandEntries]
    split
    · rename_i hany
      obtain ⟨classes, hclasses, hmem⟩ := (Option.any_eq_true ..).mp hany
      rw [expandEntry_of_applied hclasses, hdropped classes hmem]
      exact expandEntries_without hdropped hrest out
    · rw [expandEntries, expandEntry_without hdropped hvalue key out]
      exact bind_congr fun out => expandEntries_without hdropped hrest out

/-- What is dropped inside of an entry adds nothing to it. -/
theorem expandEntry_without (hdropped : ∀ t, dropped t = true → apply t = pure []) :
    ∀ {value : StyleValue}, WellKeyedValue value → ∀ (key : Text) (out : StyleTree),
      expandEntry env apply key (withoutIn dropped value) out =
        expandEntry env apply key value out
  | .scalar _, _, _, _ | .list _, _, _, _ => rfl
  | .tree body, hvalue, key, out => by
    cases hclasses : applied? key (.tree body) with
    | some classes =>
      have hclasses' : applied? key (withoutIn dropped (.tree body)) = some classes := by
        rw [applied?_withoutIn, hclasses]
      rw [expandEntry_of_applied hclasses, expandEntry_of_applied hclasses']
    | none =>
      have hclasses' : applied? key (.tree (without dropped body)) = none :=
        (applied?_withoutIn key (.tree body)).trans hclasses
      have hbody : WellKeyed body := hvalue
      have hexpand : expand env apply (without dropped body) = expand env apply body := by
        rw [expand_eq_expandEntries hbody, expand_eq_expandEntries (wellKeyed_without hbody)]
        exact expandEntries_without hdropped hbody []
      rw [withoutIn, expandEntry_tree hclasses, expandEntry_tree hclasses', hexpand]

end

/-- A tree in which class lists are dropped is expanded as if the entries that apply them were not
there. -/
theorem expand_without (hdropped : ∀ t, dropped t = true → apply t = pure []) {tree : StyleTree}
    (h : WellKeyed tree) :
    expand env apply (without dropped tree) = expand env apply tree := by
  rw [expand_eq_expandEntries h, expand_eq_expandEntries (wellKeyed_without h)]
  exact expandEntries_without hdropped h []

end Directive

namespace Environment

/-! ## Evaluation level by level -/

/-- The highest number of levels among class lists. -/
def highest (levels : Text → Nat) (lists : List Text) : Nat :=
  lists.foldr (fun t n => max (levels t) n) 0

theorem highest_congr {levels levels' : Text → Nat} : ∀ {lists : List Text},
    (∀ t ∈ lists, levels t = levels' t) → highest levels lists = highest levels' lists
  | [], _ => rfl
  | t :: rest, h => by
    obtain ⟨ht, hrest⟩ := List.forall_mem_cons.mp h
    exact congrArg₂ max ht (highest_congr hrest)

theorem highest_le {levels : Text → Nat} {n : Nat} : ∀ {lists : List Text},
    (∀ t ∈ lists, levels t ≤ n) → highest levels lists ≤ n
  | [], _ => Nat.zero_le n
  | t :: rest, h => by
    obtain ⟨ht, hrest⟩ := List.forall_mem_cons.mp h
    exact max_le ht (highest_le hrest)

/-- What is left of an evaluated class list where it is applied. -/
def appliedStyles (result : Report Evaluated) (important : Bool) : Report StyleTree := do
  let result ← result.silent
  return if important then StyleTree.important result.tree else result.tree

mutual

/-- At a depth, a class list is evaluated to the result, and inside of it class lists are evaluated
in so many levels.  All that the evaluation asks for is what the class lists that it applies come
to. -/
inductive Evaluates (env : Environment) (limit : Nat) :
    Nat → Mode → Text → Report Evaluated → Nat → Prop where
  | evaluated {depth : Nat} {mode : Mode} {input : Text} {apply : Text → Report StyleTree}
      {levels : Text → Nat} :
    (∀ t ∈ env.applications input, Applied env limit depth t (apply t) (levels t)) →
    Evaluates env limit depth mode input (env.evaluateIn mode apply input)
      (highest levels (env.applications input))

/-- At a depth, a class list is applied with the styles, and in so many levels class lists are
evaluated for it: none if it is dropped. -/
inductive Applied (env : Environment) (limit : Nat) :
    Nat → Text → Report StyleTree → Nat → Prop where
  | dropped {depth : Nat} {t : Text} : limit ≤ depth → Applied env limit depth t (pure []) 0
  | nested {depth : Nat} {t : Text} {result : Report Evaluated} {levels : Nat} :
    depth < limit →
    Evaluates env limit (depth + 1) .applied (splitImportant t).1 result levels →
    Applied env limit depth t (appliedStyles result (splitImportant t).2) (levels + 1)

end

variable (env : Environment)

/-- In how many levels class lists are evaluated for one that is applied with so many left. -/
def appliedLevels : Nat → Text → Nat
  | 0, _ => 0
  | levels + 1, t => highest (appliedLevels levels) (env.applications (splitImportant t).1) + 1

variable {env} {limit : Nat}

theorem appliedLevels_le : ∀ (levels : Nat) (t : Text), env.appliedLevels levels t ≤ levels
  | 0, _ => Nat.le_refl 0
  | levels + 1, _ => Nat.succ_le_succ (highest_le fun t _ => appliedLevels_le levels t)

theorem exists_applied : ∀ (levels depth : Nat), depth + levels = limit → ∀ t : Text,
    Applied env limit depth t (env.applyWithin levels t) (env.appliedLevels levels t)
  | 0, depth, hdepth, t => .dropped (by omega)
  | levels + 1, depth, hdepth, t => by
    rw [appliedLevels, applyWithin_succ]
    refine .nested (by omega) (.evaluated fun t _ => ?_)
    exact exists_applied levels (depth + 1) (by omega) t

mutual

/-- The evaluation comes to what is computed with the levels that are left. -/
theorem Evaluates.eq : ∀ {depth mode input result n},
    Evaluates env limit depth mode input result n → ∀ {levels}, depth + levels = limit →
      result = env.evaluateIn mode (env.applyWithin levels) input ∧
        n = highest (env.appliedLevels levels) (env.applications input)
  | _, _, _, _, _, .evaluated h, _, hdepth =>
    ⟨exprs_congr (fun _ _ _ _ => rfl) _ false {} fun t ht => ((h t ht).eq hdepth).1,
      highest_congr fun t ht => ((h t ht).eq hdepth).2⟩

theorem Applied.eq : ∀ {depth t styles n}, Applied env limit depth t styles n →
    ∀ {levels}, depth + levels = limit →
      styles = env.applyWithin levels t ∧ n = env.appliedLevels levels t
  | _, _, _, _, .dropped hlimit, levels, hdepth => by
    obtain rfl : levels = 0 := by omega
    exact ⟨rfl, rfl⟩
  | _, _, _, _, .nested hlimit hresult, levels, hdepth => by
    obtain ⟨levels, rfl⟩ : ∃ below, levels = below + 1 := ⟨levels - 1, by omega⟩
    have hbelow : _ + 1 + levels = limit := (Nat.add_right_comm ..).trans hdepth
    obtain ⟨rfl, rfl⟩ := hresult.eq hbelow
    exact ⟨(applyWithin_succ levels _).symm, rfl⟩

end

/-- A class list is evaluated in exactly one way, in no more levels than the limit. -/
theorem evaluates_iff (limit : Nat) (input : Text) : ∃ levels ≤ limit, ∀ result n,
    Evaluates env limit 0 .direct input result n ↔
      result = env.evaluateWithin limit input ∧ n = levels := by
  refine ⟨highest (env.appliedLevels limit) (env.applications input),
    highest_le fun t _ => appliedLevels_le limit t, fun result n => ⟨fun h => h.eq (by omega), ?_⟩⟩
  rintro ⟨rfl, rfl⟩
  exact .evaluated fun t _ => exists_applied limit 0 (by omega) t

/-! ## References -/

/-- The evaluation of the first class list applies the second. -/
def References (env : Environment) (input other : Text) : Prop :=
  ∃ t ∈ env.applications input, other = (splitImportant t).1

/-- Class lists nest in so many levels if no chain of references is longer. -/
theorem nestsWithin_iff : ∀ {levels : Nat} {input : Text}, env.NestsWithin levels input ↔
    ∀ chain, List.IsChain env.References (input :: chain) → chain.length ≤ levels
  | 0, input => by
    rw [NestsWithin]
    constructor
    · rintro hnone (_ | ⟨other, chain⟩) h
      · exact Nat.le_refl 0
      · obtain ⟨t, ht, -⟩ := h.rel
        exact absurd (hnone ▸ ht) List.not_mem_nil
    · intro h
      refine List.eq_nil_iff_forall_not_mem.mpr fun t ht => ?_
      have hchain := h [(splitImportant t).1] (.cons_cons ⟨t, ht, rfl⟩ (.singleton _))
      exact absurd hchain (Nat.not_succ_le_zero 0)
  | levels + 1, input => by
    rw [NestsWithin]
    constructor
    · rintro hnests (_ | ⟨other, chain⟩) h
      · exact Nat.zero_le _
      · obtain ⟨t, ht, rfl⟩ := h.rel
        exact Nat.succ_le_succ (nestsWithin_iff.mp (hnests t ht) chain
          (List.isChain_cons_cons.mp h).2)
    · intro h t ht
      refine nestsWithin_iff.mpr fun chain hchain => ?_
      exact Nat.le_of_succ_le_succ (h _ (.cons_cons ⟨t, ht, rfl⟩ hchain))

/-- The evaluation of a class list comes to an end in exactly one way, with at most 32 levels of
class lists that are applied inside one another, whatever they refer to.  Where class lists are
dropped, the other entries of the tree of a static utility are expanded as if those that apply them
were not there.  And if class lists do not refer to one another in longer chains, more levels change
nothing. -/
theorem evaluate_bounded (env : Environment) (hregistry : env.registry.WellKeyed) :
    (∀ input, ∃ levels ≤ 32, ∀ result n,
      Evaluates env 32 0 .direct input result n ↔ result = env.evaluate input ∧ n = levels) ∧
    (∀ (apply : Text → Report StyleTree) (dropped : Text → Bool) head found,
      (∀ t, dropped t = true → apply t = pure []) → env.utilityOf head = .ok found →
        Directive.expand env apply found.tree =
          Directive.expand env apply (Directive.without dropped found.tree)) ∧
    (∀ input, (∀ chain, List.IsChain env.References (input :: chain) → chain.length ≤ 32) →
      ∀ levels, 32 ≤ levels → env.evaluateWithin levels input = env.evaluate input) := by
  refine ⟨fun input => evaluates_iff 32 input, ?_, ?_⟩
  · intro apply dropped head found hdropped hfound
    exact (Directive.expand_without hdropped (wellKeyed_of_utilityOf hregistry hfound)).symm
  · intro input hchains levels hlevels
    have hnests : env.NestsWithin 32 input := nestsWithin_iff.mpr hchains
    exact exprs_congr (fun _ _ _ _ => rfl) _ false {}
      (applyWithin_congr hnests hlevels (Nat.le_refl 32))

/-- One class applies itself, beside a declaration and another class that does not apply any. -/
theorem evaluate_bounded_loop :
    let settings : Settings := ⟨[':'], [], .all false, .media, []⟩
    let body : StyleTree := [("@apply", .scalar "l f"), (['a'], .scalar ['b'])]
    let registry : Registry :=
      ⟨[(['l'], [⟨[], .fixed body .standard⟩]),
        (['f'], [⟨[], .fixed [(['c'], .scalar ['d'])] .standard⟩])], [], []⟩
    let env : Environment := ⟨⟨.null⟩, settings, .colon, registry⟩
    env.registry.WellKeyed ∧
      (∃ levels ≤ 32, ∀ result n, Evaluates env 32 0 .direct ['l'] result n ↔
        result = env.evaluate ['l'] ∧ n = levels) ∧
      (∃ found, env.utilityOf (.plain ⟨0, ['l']⟩ none) = .ok found ∧
        (∀ t, (fun _ => true) t = true → env.applyWithin 0 t = pure []) ∧
        Directive.expand env (env.applyWithin 0) found.tree =
          Directive.expand env (env.applyWithin 0) [(['a'], .scalar ['b'])]) ∧
      (∀ chain, List.IsChain env.References (['f'] :: chain) → chain.length ≤ 32) ∧
      env.evaluateWithin 33 ['f'] = env.evaluate ['f'] := by
  intro settings body registry env
  have hregistry : env.registry.WellKeyed := by
    refine Registry.wellKeyed_of_mem ?_ fun _ h => absurd h List.not_mem_nil
    refine List.forall_mem_cons.mpr ⟨?_, List.forall_mem_singleton.mpr ?_⟩
    · exact List.forall_mem_singleton.mpr ⟨by decide, trivial, StyleTree.WellKeyed.scalar _ _⟩
    · exact List.forall_mem_singleton.mpr (StyleTree.WellKeyed.scalar _ _)
  obtain ⟨hlevels, hdropped, hlarger⟩ := evaluate_bounded env hregistry
  have hnests : env.NestsWithin 0 ['f'] := by decide
  have hchains : ∀ chain, List.IsChain env.References (['f'] :: chain) → chain.length ≤ 32 :=
    fun chain hchain => (nestsWithin_iff.mp hnests chain hchain).trans (Nat.zero_le 32)
  have hall : ∀ t, (fun _ : Text => true) t = true → env.applyWithin 0 t = pure [] :=
    fun _ _ => rfl
  exact ⟨hregistry, hlevels ['l'],
    ⟨_, rfl, hall, hdropped _ _ (.plain ⟨0, ['l']⟩ none) _ hall rfl⟩, hchains,
    hlarger ['f'] hchains 33 (by omega)⟩

end Environment
end UtilityCss
