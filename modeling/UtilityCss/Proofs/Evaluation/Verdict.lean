import UtilityCss.Evaluation.Variant
import UtilityCss.Proofs.Evaluation.Precedence

/-!
# Verdicts on what is offered

Names are resolved in one way, whether they are of utilities or of variants and whether
they stand alone or in front of a bracketed value.  Readings are tried in turn, and for each
of them the registry offers candidates.  The first reading that anything is offered for has
the verdict: it comes to its one strong candidate, or to its one candidate if none is
strong, and where several are left it is ambiguous.

Only bracketed values have candidates that are not strong.  A verdict says nothing about the
order of candidates, so it is the same whatever order they are offered in.
-/

namespace UtilityCss

section

variable {ι γ β : Type}

/-- The candidate is the only strong one, or the only one where none is strong. -/
def Sole (strong : γ → Bool) (candidates : List γ) (c : γ) : Prop :=
  candidates.filter strong = [c] ∨ candidates.filter strong = [] ∧ candidates = [c]

/-- Several candidates are strong, or there are several where none is strong. -/
def Several (strong : γ → Bool) (candidates : List γ) : Prop :=
  1 < (candidates.filter strong).length ∨
    candidates.filter strong = [] ∧ 1 < candidates.length

/-- What a reading comes to by its candidates: nothing if there are none, else the one that is
left, else that it is ambiguous. -/
inductive Judged (strong : γ → Bool) (candidates : List γ) (make : γ → β) :
    Option (Except Failure β) → Prop where
  | nothing : candidates = [] → Judged strong candidates make none
  | sole {c : γ} : Sole strong candidates c → Judged strong candidates make (some (.ok (make c)))
  | several : Several strong candidates →
    Judged strong candidates make (some (.error .ambiguous))

/-- What readings come to: what the first of them does that comes to anything. -/
inductive Verdict (strong : γ → Bool) (offered : ι → List γ) (make : ι → γ → β) :
    List ι → Except Failure β → Prop where
  | notFound : Verdict strong offered make [] (.error .notFound)
  | next {r : ι} {rest : List ι} {decision : Except Failure β} :
    Judged strong (offered r) (make r) none → Verdict strong offered make rest decision →
    Verdict strong offered make (r :: rest) decision
  | first {r : ι} {rest : List ι} {decision : Except Failure β} :
    Judged strong (offered r) (make r) (some decision) →
    Verdict strong offered make (r :: rest) decision

/-! ## Verdicts are determined -/

variable {strong : γ → Bool} {candidates candidates' : List γ} {c c' : γ} {make : γ → β}

theorem Sole.ne_nil (h : Sole strong candidates c) : candidates ≠ [] := by
  rintro rfl
  rcases h with h | ⟨-, h⟩ <;> exact absurd h (by simp)

theorem Several.ne_nil (h : Several strong candidates) : candidates ≠ [] := by
  rintro rfl
  rcases h with h | ⟨-, h⟩ <;> exact absurd h (by simp)

theorem Sole.unique (h : Sole strong candidates c) (h' : Sole strong candidates c') : c = c' := by
  rcases h with h | ⟨hnone, h⟩ <;> rcases h' with h' | ⟨hnone', h'⟩
  · exact List.singleton_inj.mp (h.symm.trans h')
  · exact absurd (h.symm.trans hnone') (by simp)
  · exact absurd (h'.symm.trans hnone) (by simp)
  · exact List.singleton_inj.mp (h.symm.trans h')

theorem Sole.not_several (h : Sole strong candidates c) : ¬ Several strong candidates := by
  rcases h with h | ⟨hnone, h⟩ <;> rintro (hlt | ⟨hnone', hlt⟩)
  · exact absurd hlt (by simp [h])
  · exact absurd (h.symm.trans hnone') (by simp)
  · exact absurd hlt (by simp [hnone])
  · exact absurd hlt (by simp [h])

theorem Judged.unique {d d' : Option (Except Failure β)} (h : Judged strong candidates make d)
    (h' : Judged strong candidates make d') : d = d' := by
  cases h with
  | nothing hnil =>
    cases h' with
    | nothing => rfl
    | sole h' => exact absurd hnil h'.ne_nil
    | several h' => exact absurd hnil h'.ne_nil
  | sole h =>
    cases h' with
    | nothing hnil => exact absurd hnil h.ne_nil
    | sole h' => rw [h.unique h']
    | several h' => exact absurd h' h.not_several
  | several h =>
    cases h' with
    | nothing hnil => exact absurd hnil h.ne_nil
    | sole h' => exact absurd h h'.not_several
    | several => rfl

theorem Verdict.unique {offered : ι → List γ} {make : ι → γ → β} {readings : List ι}
    {d d' : Except Failure β} (h : Verdict strong offered make readings d)
    (h' : Verdict strong offered make readings d') : d = d' := by
  induction h with
  | notFound =>
    cases h'
    rfl
  | next hnone _ ih =>
    cases h' with
    | next _ hrest => exact ih hrest
    | first hsome => exact absurd (hnone.unique hsome) (by simp)
  | first hsome =>
    cases h' with
    | next hnone _ => exact absurd (hnone.unique hsome) (by simp)
    | first hsome' => exact Option.some.inj (hsome.unique hsome')

/-- There is no other verdict. -/
theorem Verdict.iff_eq {offered : ι → List γ} {make : ι → γ → β} {readings : List ι}
    {d d' : Except Failure β} (h : Verdict strong offered make readings d) :
    Verdict strong offered make readings d' ↔ d' = d :=
  ⟨fun h' => h'.unique h, fun heq => heq ▸ h⟩

/-! ## Candidates in another order -/

theorem Sole.perm (hperm : candidates.Perm candidates') (h : Sole strong candidates c) :
    Sole strong candidates' c := by
  have hstrong := hperm.filter strong
  rcases h with h | ⟨hnone, h⟩
  · rw [h, List.singleton_perm] at hstrong
    exact Or.inl hstrong.symm
  · rw [hnone, List.nil_perm] at hstrong
    rw [h, List.singleton_perm] at hperm
    exact Or.inr ⟨hstrong, hperm.symm⟩

theorem Several.perm (hperm : candidates.Perm candidates') (h : Several strong candidates) :
    Several strong candidates' := by
  have hstrong := hperm.filter strong
  rcases h with h | ⟨hnone, h⟩
  · exact Or.inl (hstrong.length_eq ▸ h)
  · rw [hnone, List.nil_perm] at hstrong
    exact Or.inr ⟨hstrong, hperm.length_eq ▸ h⟩

theorem Judged.perm {d : Option (Except Failure β)} (hperm : candidates.Perm candidates')
    (h : Judged strong candidates make d) : Judged strong candidates' make d := by
  cases h with
  | nothing hnil =>
    rw [hnil, List.nil_perm] at hperm
    exact .nothing hperm
  | sole h => exact .sole (h.perm hperm)
  | several h => exact .several (h.perm hperm)

/-- A verdict does not depend on the order of candidates. -/
theorem Verdict.perm {offered offered' : ι → List γ} {make : ι → γ → β} {readings : List ι}
    {d : Except Failure β} (hperm : ∀ r, (offered r).Perm (offered' r))
    (h : Verdict strong offered make readings d) : Verdict strong offered' make readings d := by
  induction h with
  | notFound => exact .notFound
  | next hnone _ ih => exact .next (hnone.perm (hperm _)) ih
  | first hsome => exact .first (hsome.perm (hperm _))

/-- A reading in front has the verdict if it comes to anything. -/
theorem Verdict.cons {offered : ι → List γ} {make : ι → γ → β} {r : ι} {rest : List ι}
    {d : Except Failure β} {own : Option (Except Failure β)}
    (hown : Judged strong (offered r) (make r) own) (h : Verdict strong offered make rest d) :
    Verdict strong offered make (r :: rest) (own.getD d) := by
  cases own with
  | none => exact .next hown h
  | some decision => exact .first hown

end

/-! ## Utilities -/

namespace Candidate

/-- What candidates for a utility come to. -/
theorem judged_choose? (key : Text) (candidates : List Candidate) :
    Judged strong candidates (fun c => (⟨key, c.spec, c.tree⟩ : ResolvedUtility))
      (choose? key candidates) := by
  unfold choose?
  dsimp only
  by_cases hnone : candidates.filter strong = []
  · rw [hnone]
    simp only [List.isEmpty_nil, if_true]
    rcases candidates with _ | ⟨c, _ | ⟨c', rest⟩⟩
    · exact .nothing rfl
    · exact .sole (Or.inr ⟨hnone, rfl⟩)
    · exact .several (Or.inr ⟨hnone, by simp⟩)
  · rw [List.isEmpty_eq_false_iff.mpr hnone]
    rcases hstrong : candidates.filter strong with _ | ⟨c, _ | ⟨c', rest⟩⟩
    · exact absurd hstrong hnone
    · exact .sole (Or.inl hstrong)
    · exact .several (Or.inl (by rw [hstrong]; simp))

end Candidate

namespace Environment

variable (env : Environment)

/-- The utility that a reading comes to by a candidate. -/
def utilityBy (r : Reading) (c : Candidate) : ResolvedUtility := ⟨r.key, c.spec, c.tree⟩

theorem verdict_decide? (led : Bool) : ∀ readings : List Reading,
    Verdict Candidate.strong (env.offered led) utilityBy readings (env.decide? led readings)
  | [] => .notFound
  | r :: rest => by
    rw [decide?_cons]
    exact .cons (Candidate.judged_choose? r.key _) (verdict_decide? led rest)

/-- A plain name of a utility is resolved by its readings. -/
theorem verdict_utility {name : Text} {m : Option ModifierText} {readings : List Reading}
    (h : Reading.all? env.registry.utilities UtilitySpec.isLookup (env.stripLead name).1 m =
      some readings) :
    Verdict Candidate.strong (env.offered (env.stripLead name).2) utilityBy readings
      (env.utility name m) := by
  simp only [utility, h]
  exact env.verdict_decide? _ readings

theorem utility_of_torn {name : Text} {m : Option ModifierText}
    (h : Reading.all? env.registry.utilities UtilitySpec.isLookup (env.stripLead name).1 m = none) :
    env.utility name m = .error .torn := by
  simp only [utility, h]

/-- The ways to read a name in front of a bracketed value: as it stands, and without its hyphen
for a negative value. -/
def bracketedReadings (name : Text) : List (Text × Bool) :=
  (name, false) :: ((Reading.positive? name).map fun key => (key, true)).toList

/-- What is offered for a bracketed value, the name without its lead and perhaps its hyphen. -/
def offeredBracketed (value : Text) (m : Option ModifierText) (led : Bool) (r : Text × Bool) :
    List Candidate :=
  env.bracketedCandidates r.1 value r.2 m led

/-- The utility that a reading of the name comes to by a candidate. -/
def bracketedUtilityBy (r : Text × Bool) (c : Candidate) : ResolvedUtility :=
  ⟨r.1, c.spec, c.tree⟩

theorem bracketedUtility_eq (name value : Text) (m : Option ModifierText) :
    env.bracketedUtility name value m =
      (bracketedReadings (env.stripLead name).1).foldr
        (fun r d =>
          (Candidate.choose? r.1
            (env.offeredBracketed value m (env.stripLead name).2 r)).getD d)
        (.error .notFound) := by
  unfold bracketedUtility bracketedReadings offeredBracketed
  simp only [List.foldr_cons]
  cases Candidate.choose? (env.stripLead name).1
      (env.bracketedCandidates (env.stripLead name).1 value false m (env.stripLead name).2) with
  | some decision => rfl
  | none =>
    cases Reading.positive? (env.stripLead name).1 with
    | none => rfl
    | some key =>
      simp only [Option.map_some, Option.toList_some, List.foldr_cons, Option.bind_some,
        Option.getD_none]
      cases Candidate.choose? key
        (env.bracketedCandidates key value true m (env.stripLead name).2) <;> rfl

/-- A name with a bracketed value is resolved by the ways to read the name. -/
theorem verdict_bracketedUtility (name value : Text) (m : Option ModifierText) :
    Verdict Candidate.strong (env.offeredBracketed value m (env.stripLead name).2)
      bracketedUtilityBy (bracketedReadings (env.stripLead name).1)
      (env.bracketedUtility name value m) := by
  rw [bracketedUtility_eq]
  induction bracketedReadings (env.stripLead name).1 with
  | nil => exact .notFound
  | cons r rest ih => exact .cons (Candidate.judged_choose? r.1 _) ih

/-! ## Variants -/

/-- What is offered for a reading of the name of a variant. -/
def offeredVariants (r : Reading) : List (VariantSpec × List Text) :=
  variantCandidates (env.registry.variants.specs r.key) r

/-- The variant that a name comes to by a candidate. -/
def variantBy (key : Text) (c : VariantSpec × List Text) : ResolvedVariant :=
  ⟨key, some c.1, wrapperOf c.1 c.2⟩

theorem judged_chooseVariant? (key : Text) (candidates : List (VariantSpec × List Text)) :
    Judged (fun _ => true) candidates (variantBy key) (chooseVariant? key candidates) := by
  have hall : candidates.filter (fun _ => true) = candidates :=
    List.filter_eq_self.mpr fun _ _ => rfl
  rcases candidates with _ | ⟨c, _ | ⟨c', rest⟩⟩
  · exact .nothing rfl
  · exact .sole (Or.inl hall)
  · exact .several (Or.inl (by rw [hall]; simp))

theorem decideVariant?_cons (r : Reading) (rest : List Reading) :
    env.decideVariant? (r :: rest) =
      (chooseVariant? r.key (env.offeredVariants r)).getD (env.decideVariant? rest) := by
  rw [decideVariant?, offeredVariants]
  cases chooseVariant? r.key (variantCandidates (env.registry.variants.specs r.key) r) <;> rfl

theorem verdict_decideVariant? : ∀ readings : List Reading,
    Verdict (fun _ => true) env.offeredVariants (fun r => variantBy r.key) readings
      (env.decideVariant? readings)
  | [] => .notFound
  | r :: rest => by
    rw [decideVariant?_cons]
    exact .cons (judged_chooseVariant? r.key _) (verdict_decideVariant? rest)

/-- A plain name of a variant is resolved by its readings, but not by those without its hyphen. -/
theorem verdict_variant {name : Text} {m : Option ModifierText} {readings : List Reading}
    (h : Reading.all? env.registry.variants VariantSpec.isLookup name m = some readings) :
    Verdict (fun _ => true) env.offeredVariants (fun r => variantBy r.key)
      (readings.filter fun r => !r.negative) (env.variant name m) := by
  simp only [variant, h]
  exact env.verdict_decideVariant? _

theorem variant_of_torn {name : Text} {m : Option ModifierText}
    (h : Reading.all? env.registry.variants VariantSpec.isLookup name m = none) :
    env.variant name m = .error .torn := by
  simp only [variant, h]

/-- What is offered for a variant with a bracketed value. -/
def offeredBracketedVariants (value : Text) (m : Option ModifierText) (name : Text) :
    List (VariantSpec × List Text) :=
  (env.registry.variants.specs name).filterMap fun spec =>
    match spec.rule with
    | .fixed _ => none
    | .lookup v =>
      (v.render value (m.map ModifierText.text)).map fun template => (spec, [template])

/-- A name with a bracketed value of a variant has one reading. -/
theorem verdict_bracketedVariant (name value : Text) (m : Option ModifierText) :
    Verdict (fun _ => true) (env.offeredBracketedVariants value m) variantBy [name]
      (env.bracketedVariant name value m) := by
  have hgetD : env.bracketedVariant name value m =
      (chooseVariant? name (env.offeredBracketedVariants value m name)).getD
        (.error .notFound) := by
    unfold bracketedVariant
    dsimp only
    split <;> rename_i hchoose
    · exact (congrArg (Option.getD · (.error .notFound)) hchoose).symm
    · exact (congrArg (Option.getD · (.error .notFound)) hchoose).symm
  rw [hgetD]
  exact .cons (judged_chooseVariant? name _) .notFound

end Environment
end UtilityCss
