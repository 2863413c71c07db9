import UtilityCss.Context
import UtilityCss.Proofs.Evaluation.Colored
import UtilityCss.Proofs.Evaluation.Static
import UtilityCss.Proofs.Evaluation.Verdict

/-!
# Keys at which names are ambiguous

The first reading of a name that anything is offered for decides, and its key is ambiguous if
several candidates are left.  For a value, a sign or a modifier only utilities that take values
are offered, so several of them are registered under the key, and the context lists it.

A bare name is for style trees as well.  Together they are one candidate, which is one too many
beside a single utility that takes values, if that has a value for the bare name.  No value could
mean two things then, so the key is not listed.
-/

namespace UtilityCss

/-! ## The reading that decides -/

section

variable {ι γ β : Type}

/-- The first reading that anything is offered for. -/
def decisive? (offered : ι → List γ) (readings : List ι) : Option ι :=
  readings.find? fun r => !(offered r).isEmpty

variable {strong : γ → Bool} {candidates : List γ} {offered : ι → List γ} {make : ι → γ → β}
  {readings : List ι}

theorem Several.one_lt_length (h : Several strong candidates) : 1 < candidates.length := by
  rcases h with h | ⟨-, h⟩
  · exact Nat.lt_of_lt_of_le h (List.length_filter_le _ _)
  · exact h

theorem Judged.ne_nil {own : Except Failure β} {make : γ → β}
    (h : Judged strong candidates make (some own)) : candidates ≠ [] := by
  cases h with
  | sole hsole => exact hsole.ne_nil
  | several hseveral => exact hseveral.ne_nil

/-- A verdict is what the decisive reading comes to, or nothing is offered for any. -/
theorem Verdict.of_decisive {d : Except Failure β} (h : Verdict strong offered make readings d) :
    d = .error .notFound ∨ ∃ r, decisive? offered readings = some r ∧
      Judged strong (offered r) (make r) (some d) := by
  induction h with
  | notFound => exact .inl rfl
  | @next r rest _ hnone _ ih =>
    cases hnone with
    | nothing hnil =>
      have hskip : decisive? offered (r :: rest) = decisive? offered rest :=
        List.find?_cons_of_neg (by simp [hnil])
      rwa [hskip]
  | @first r rest _ hjudged =>
    have hhere : decisive? offered (r :: rest) = some r :=
      List.find?_cons_of_pos (by simpa using hjudged.ne_nil)
    exact .inr ⟨r, hhere, hjudged⟩

end

namespace Environment

variable (env : Environment)

/-- The registered name at which it is decided what a utility is. -/
def decidedAt? (head : ClassList.Head) : Option Text :=
  let modifier := head.modifier.map ClassList.Modifier.written
  match head with
  | .plain name _ =>
    let (name, led) := env.stripLead name.text
    (Reading.all? env.registry.utilities UtilitySpec.isLookup name modifier).bind fun readings =>
      (decisive? (env.offered led) readings).map Reading.key
  | .bracketed lead value _ _ =>
    let (name, led) := env.stripLead lead.text
    (decisive? (env.offeredBracketed (Bracketed.value env.theme value.text) modifier led)
      (bracketedReadings name)).map Prod.fst

/-- The bare name of a key is that of style trees and of one utility that takes values, which has a
value for it. -/
structure Clashes (key : Text) : Prop where
  style : ∃ spec ∈ env.registry.utilities.specs key, spec.isLookup = false
  value : ∃ plugin u,
    (env.registry.utilities.specs key).filter UtilitySpec.isLookup = [⟨plugin, .lookup u⟩] ∧
      u.flags.filterDefault = false ∧ (u.values.lookup ("DEFAULT" : Text)).isSome = true

variable {env} {name lead value : Slice} {m : Option ClassList.Modifier} {closed : Bool}
  {d : Except Failure ResolvedUtility}

/-- A plain name that is decided is decided by one of its readings. -/
theorem decided_plain (h : env.utilityOf (.plain name m) = d) (hfound : d ≠ .error .notFound)
    (htorn : d ≠ .error .torn) : ∃ readings r,
      Reading.all? env.registry.utilities UtilitySpec.isLookup (env.stripLead name.text).1
        (m.map ClassList.Modifier.written) = some readings ∧ r ∈ readings ∧
      env.decidedAt? (.plain name m) = some r.key ∧
      Judged Candidate.strong (env.offered (env.stripLead name.text).2 r) (utilityBy r)
        (some d) := by
  cases hreadings : Reading.all? env.registry.utilities UtilitySpec.isLookup
      (env.stripLead name.text).1 (m.map ClassList.Modifier.written) with
  | none => exact absurd (h.symm.trans (env.utility_of_torn hreadings)) htorn
  | some readings =>
    have hverdict := env.verdict_utility hreadings
    rw [show env.utility name.text (m.map ClassList.Modifier.written) = d from h] at hverdict
    obtain ⟨r, hr, hjudged⟩ := hverdict.of_decisive.resolve_left hfound
    refine ⟨readings, r, rfl, List.mem_of_find?_eq_some hr, ?_, hjudged⟩
    rw [decidedAt?]
    dsimp only [ClassList.Head.modifier]
    rw [hreadings, Option.bind_some, hr, Option.map_some]

/-- A name with a bracketed value that is decided is decided by one of the readings of the name. -/
theorem decided_bracketed (h : env.utilityOf (.bracketed lead value m closed) = d)
    (hfound : d ≠ .error .notFound) : ∃ r : Text × Bool,
      env.decidedAt? (.bracketed lead value m closed) = some r.1 ∧
      Judged Candidate.strong
        (env.offeredBracketed (Bracketed.value env.theme value.text)
          (m.map ClassList.Modifier.written) (env.stripLead lead.text).2 r)
        (bracketedUtilityBy r) (some d) := by
  have hverdict := env.verdict_bracketedUtility lead.text (Bracketed.value env.theme value.text)
    (m.map ClassList.Modifier.written)
  rw [show env.bracketedUtility lead.text (Bracketed.value env.theme value.text)
    (m.map ClassList.Modifier.written) = d from h] at hverdict
  obtain ⟨r, hr, hjudged⟩ := hverdict.of_decisive.resolve_left hfound
  refine ⟨r, ?_, hjudged⟩
  rw [decidedAt?]
  dsimp only [ClassList.Head.modifier]
  rw [hr, Option.map_some]

/-! ## What is offered for a reading -/

/-- What only utilities that take values can be offered for is offered at most once by each. -/
theorem length_filterMap_le {α β : Type} {p isLookup : α → Bool} {f : α → Option β}
    (hf : ∀ a, (f a).isSome = true → isLookup a = true) (l : List α) :
    ((l.filter p).filterMap f).length ≤ l.countP isLookup := by
  rw [List.length_filterMap_eq_countP]
  exact Nat.le_trans (List.countP_mono_left fun a _ => hf a) (List.filter_sublist.countP_le)

theorem length_offeredBracketed_le (text : Text) (modifier : Option ModifierText) (led : Bool)
    (r : Text × Bool) : (env.offeredBracketed text modifier led r).length ≤
      (env.registry.utilities.specs r.1).countP UtilitySpec.isLookup := by
  refine length_filterMap_le ?_ _
  rintro ⟨plugin, _ | u⟩ h
  · cases h
  · rfl

/-- Style trees are offered only if one is registered. -/
theorem exists_of_staticCandidate? : ∀ {specs : List UtilitySpec} {c : Candidate},
    staticCandidate? specs = some c → ∃ spec ∈ specs, spec.isLookup = false
  | [], _, h => by cases h
  | ⟨plugin, .fixed tree flags⟩ :: rest, _, _ =>
    ⟨⟨plugin, .fixed tree flags⟩, List.mem_cons_self, rfl⟩
  | ⟨plugin, .lookup u⟩ :: rest, c, h => by
    rw [staticCandidate?] at h
    obtain ⟨spec, hspec, hstatic⟩ := exists_of_staticCandidate? h
    exact ⟨spec, List.mem_cons_of_mem _ hspec, hstatic⟩

/-- For a reading utilities are offered that take values, and the style trees together if it is the
bare name. -/
theorem offered_cases (led : Bool) (r : Reading) :
    (env.offered led r).length ≤
        (env.registry.utilities.specs r.key).countP UtilitySpec.isLookup ∨
      (r.value = none ∧ r.negative = false ∧ r.modifier = none) ∧
        (∃ spec ∈ env.registry.utilities.specs r.key, spec.isLookup = false) ∧
        ∃ c lookups, env.offered led r = c :: lookups ∧
          ∀ c ∈ lookups, ∃ spec ∈ env.registry.utilities.specs r.key, ∃ u tree,
            spec.rule = .lookup u ∧ env.renderEntry? u r = some tree := by
  let allowed := (env.registry.utilities.specs r.key).filter fun spec => env.allows spec.flags led
  let static :=
    if r.value.isSome || r.negative || r.modifier.isSome then none else staticCandidate? allowed
  have hoffered : env.offered led r =
    static.toList ++ allowed.filterMap (env.lookupCandidate? r) := rfl
  cases hstatic : static with
  | none =>
    refine .inl ?_
    rw [hoffered, hstatic]
    refine length_filterMap_le ?_ _
    rintro ⟨plugin, _ | u⟩ h
    · cases h
    · rfl
  | some c =>
    obtain ⟨hbare, hcandidate⟩ := Option.ite_none_left_eq_some.mp hstatic
    obtain ⟨spec, hspec, hfixed⟩ := exists_of_staticCandidate? hcandidate
    refine .inr ⟨by simpa [and_assoc] using hbare, ⟨spec, List.mem_of_mem_filter hspec, hfixed⟩, c,
      allowed.filterMap (env.lookupCandidate? r), by rw [hoffered, hstatic]; rfl, ?_⟩
    intro c' hc'
    obtain ⟨⟨plugin, rule⟩, hmem, hrendered⟩ := List.mem_filterMap.mp hc'
    cases rule with
    | fixed => cases hrendered
    | lookup u =>
      obtain ⟨tree, htree, -⟩ := Option.map_eq_some_iff.mp hrendered
      exact ⟨_, List.mem_of_mem_filter hmem, u, tree, rfl, htree⟩

/-- The only reading without a value, a sign and a modifier is the name itself. -/
theorem eq_exact_of_mem {α : Type} {table : SpecTable α} {isLookup : α → Bool} {name : Text}
    {modifier : Option ModifierText} {readings : List Reading}
    (h : Reading.all? table isLookup name modifier = some readings) {r : Reading}
    (hr : r ∈ readings) (hvalue : r.value = none) (hnegative : r.negative = false)
    (hmodifier : r.modifier = none) : r = .exact name := by
  obtain ⟨stripped, hstripped, rfl⟩ := Option.map_eq_some_iff.mp h
  rcases List.mem_append.mp (List.mem_eraseDups.mp hr) with hwhole | hsplit
  · rcases List.mem_append.mp (List.mem_of_mem_filter hwhole) with hname | hstem
    · rcases List.mem_cons.mp hname with rfl | hsigned
      · rfl
      · obtain ⟨key, -, rfl⟩ := Option.map_eq_some_iff.mp (Option.mem_toList.mp hsigned)
        cases hnegative
    · -- what is left without the modifier is read with it
      cases stripped with
      | none => cases hstem
      | some stem =>
        have hsome : modifier ≠ none := by
          rintro rfl
          cases hstripped
        rcases List.mem_cons.mp hstem with rfl | hsigned
        · exact absurd hmodifier hsome
        · obtain ⟨key, -, rfl⟩ := Option.map_eq_some_iff.mp (Option.mem_toList.mp hsigned)
          exact absurd hmodifier hsome
  · obtain ⟨part, -, hpart⟩ := List.mem_filterMap.mp (List.mem_of_mem_filter hsplit)
    obtain ⟨-, hsome⟩ := Option.ite_none_left_eq_some.mp hpart
    rw [← Option.some.inj hsome] at hvalue
    cases hvalue

/-- A utility that renders a bare name has a value for it. -/
theorem default_of_renderEntry? {u : LookupUtility} {name : Text} {tree : StyleTree}
    (h : env.renderEntry? u (.exact name) = some tree) :
    u.flags.filterDefault = false ∧ (u.values.lookup ("DEFAULT" : Text)).isSome = true := by
  rw [renderEntry?_eq rfl] at h
  obtain ⟨entry, hentry, -⟩ := Option.bind_eq_some_iff.mp h
  obtain ⟨hfilter, hvalue⟩ := Option.ite_none_left_eq_some.mp hentry
  obtain ⟨value, hvalue, -⟩ := Option.map_eq_some_iff.mp hvalue
  exact ⟨Bool.eq_false_iff.mpr hfilter, hvalue ▸ rfl⟩

end Environment

namespace Context

open Environment

/-- The keys under which several utilities that take values are registered are listed. -/
theorem mem_ambiguousUtilities {ctx : Context} {key : Text}
    (h : 1 < (ctx.env.registry.utilities.specs key).countP UtilitySpec.isLookup) :
    key ∈ ctx.ambiguousUtilities := by
  rw [SpecTable.specs] at h
  cases hlookup : ctx.env.registry.utilities.lookup key with
  | none =>
    rw [hlookup] at h
    cases h
  | some specs =>
    rw [hlookup] at h
    exact List.mem_map_of_mem (List.mem_filter.mpr ⟨Keyed.mem_of_lookup hlookup, by simpa using h⟩)

/-- If a utility is ambiguous, the key at which that was decided is listed among those of several
utilities that take values; or else the key is the plain name as it stands, the configured beginning
apart, and style trees are registered under it beside a single utility that takes values, which
has a value for the bare name. -/
theorem ambiguous_listed (ctx : Context) {head : ClassList.Head}
    (h : ctx.env.utilityOf head = .error .ambiguous) :
    ∃ key, ctx.env.decidedAt? head = some key ∧
      (key ∈ ctx.ambiguousUtilities ∨
        (∃ name m, head = .plain name m ∧ (ctx.env.stripLead name.text).1 = key) ∧
          ctx.env.Clashes key) := by
  cases head with
  | bracketed lead value m closed =>
    obtain ⟨r, hr, hjudged⟩ := decided_bracketed h (by simp)
    cases hjudged with
    | several hseveral =>
      exact ⟨r.1, hr, .inl <| mem_ambiguousUtilities <|
        Nat.lt_of_lt_of_le hseveral.one_lt_length (length_offeredBracketed_le _ _ _ r)⟩
  | plain name m =>
    obtain ⟨readings, r, hreadings, hmem, hr, hjudged⟩ := decided_plain h (by simp) (by simp)
    cases hjudged with
    | several hseveral =>
      have hlength := hseveral.one_lt_length
      refine ⟨r.key, hr, ?_⟩
      rcases ctx.env.offered_cases (ctx.env.stripLead name.text).2 r with
        hle | ⟨⟨hvalue, hnegative, hmodifier⟩, hstyle, c, lookups, hoffered, hlookups⟩
      · exact .inl (mem_ambiguousUtilities (Nat.lt_of_lt_of_le hlength hle))
      by_cases hcount :
        1 < (ctx.env.registry.utilities.specs r.key).countP UtilitySpec.isLookup
      · exact .inl (mem_ambiguousUtilities hcount)
      obtain rfl := eq_exact_of_mem hreadings hmem hvalue hnegative hmodifier
      refine .inr ⟨⟨name, m, rfl, rfl⟩, hstyle, ?_⟩
      rw [hoffered] at hlength
      obtain ⟨c', hc'⟩ := List.exists_mem_of_length_pos (Nat.lt_of_succ_lt_succ hlength)
      obtain ⟨⟨plugin, rule⟩, hspec, u, tree, rfl, hrendered⟩ := hlookups c' hc'
      have hfilter : (⟨plugin, .lookup u⟩ : UtilitySpec) ∈
          (ctx.env.registry.utilities.specs (ctx.env.stripLead name.text).1).filter
            UtilitySpec.isLookup := List.mem_filter.mpr ⟨hspec, rfl⟩
      rw [List.countP_eq_length_filter] at hcount
      obtain ⟨only, honly⟩ := List.length_eq_one_iff.mp
        (Nat.le_antisymm (Nat.le_of_not_lt hcount) (List.length_pos_of_mem hfilter))
      have heq := List.mem_singleton.mp (honly ▸ hfilter)
      exact ⟨plugin, u, honly.trans (heq ▸ rfl), default_of_renderEntry? hrendered⟩

/-- Two utilities take the value, under a name that is listed. -/
theorem ambiguous_listed_bracketed :
    let u : LookupUtility := ⟨[], [.any], .standard, fun text _ => [(text, .list [])], none⟩
    let registry : Registry := ⟨[(['m'], [⟨['p'], .lookup u⟩, ⟨['q'], .lookup u⟩])], [], []⟩
    let settings : Settings := ⟨[':'], [], .all false, .media, []⟩
    let ctx : Context := ⟨⟨⟨.null⟩, settings, .colon, registry⟩, [], false⟩
    let head : ClassList.Head := .bracketed ⟨0, ['m']⟩ ⟨3, ['v']⟩ none true
    ctx.env.utilityOf head = .error .ambiguous ∧
      ∃ key, ctx.env.decidedAt? head = some key ∧
        (key ∈ ctx.ambiguousUtilities ∨
          (∃ name m, head = .plain name m ∧ (ctx.env.stripLead name.text).1 = key) ∧
            ctx.env.Clashes key) := by
  intro u registry settings ctx head
  have h : ctx.env.utilityOf head = .error .ambiguous := by rfl
  exact ⟨h, ambiguous_listed ctx h⟩

/-- A style tree and a utility with a value for the bare name are ambiguous under a name that is not
listed. -/
theorem ambiguous_listed_style :
    let u : LookupUtility :=
      ⟨[(("DEFAULT" : Text), .text ['v'])], [.any], .standard, fun text _ => [(text, .list [])],
        none⟩
    let registry : Registry :=
      ⟨[(['a'], [⟨['p'], .fixed [(['w'], .scalar ['x'])] .standard⟩, ⟨['q'], .lookup u⟩])], [], []⟩
    let settings : Settings := ⟨[':'], [], .all false, .media, []⟩
    let ctx : Context := ⟨⟨⟨.null⟩, settings, .colon, registry⟩, [], false⟩
    let head : ClassList.Head := .plain ⟨0, ['a']⟩ none
    ctx.env.utilityOf head = .error .ambiguous ∧ ctx.env.decidedAt? head = some ['a'] ∧
      ['a'] ∉ ctx.ambiguousUtilities := by
  intro u registry settings ctx head
  exact ⟨by rfl, by rfl, by decide⟩

end Context
end UtilityCss
