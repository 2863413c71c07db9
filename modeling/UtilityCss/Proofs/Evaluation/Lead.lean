import UtilityCss.Proofs.Evaluation.Registration
import UtilityCss.Proofs.Keyed

/-!
# The lead is transparent

A lead goes in front of every name of a utility, behind the hyphen of a negative one.  It is
taken off before the readings of a name are listed, and it is asked about once more for each
utility that is offered for a reading: a utility that respects the lead is offered for names
that carry it and for no others.

Where all utilities respect it, a name with the lead resolves to what the name without it
resolves to where there is no lead, and a name that does not carry it resolves to nothing.
-/

namespace UtilityCss

namespace Reading

/-- The name with the lead in front of it, behind its hyphen if it has one. -/
def led (lead name : Text) : Text :=
  match positive? name with
  | some body => '-' :: (lead ++ body)
  | none => lead ++ name

/-- The name has the lead in front, or behind a hyphen. -/
def Carries (lead name : Text) : Prop := lead <+: name ∨ '-' :: lead <+: name

end Reading

namespace ClassList

/-- The modifier of a plain name is all behind its last slash, if there is anything. -/
theorem Head.written_ownModifier? (start : Nat) (name : Text) :
    (ownModifier? ⟨start, name⟩).map Modifier.written =
      (((Text.cutAtLast? (· = '/') name).map Prod.snd).filter (· ≠ [])).map (⟨·, false⟩) := by
  unfold ownModifier?
  cases hcut : Text.cutAtLast? (· = '/') name with
  | none => rfl
  | some parts =>
    obtain ⟨core, _ | ⟨ch, last⟩⟩ := parts
    · rfl
    · obtain ⟨_, -, -, rfl⟩ := Text.cutAtLast?_eq_some_iff.mp hcut
      show some (ModifierText.mk (List.drop (core.length + 1) _) false) = some ⟨ch :: last, false⟩
      rw [List.append_cons, List.drop_left' (by simp)]

/-- A front without a slash does not change the modifier. -/
theorem snd_cutAtLast?_append {front : Text} (h : '/' ∉ front) (t : Text) :
    (Text.cutAtLast? (· = '/') (front ++ t)).map Prod.snd =
      (Text.cutAtLast? (· = '/') t).map Prod.snd := by
  cases hcut : Text.cutAtLast? (· = '/') t with
  | some parts =>
    obtain ⟨ch, hch, hlast, rfl⟩ := Text.cutAtLast?_eq_some_iff.mp hcut
    have hfront : Text.cutAtLast? (· = '/') (front ++ (parts.1 ++ ch :: parts.2)) =
        some (front ++ parts.1, parts.2) :=
      Text.cutAtLast?_eq_some_iff.mpr ⟨ch, hch, hlast, (List.append_assoc ..).symm⟩
    rw [hfront]
    rfl
  | none =>
    rw [Option.map_none, Option.map_eq_none_iff]
    refine Option.eq_none_iff_forall_ne_some.mpr fun parts hparts => ?_
    obtain ⟨ch, hch, hlast, heq⟩ := Text.cutAtLast?_eq_some_iff.mp hparts
    obtain rfl : ch = '/' := by simpa using hch
    rcases Text.append_eq_append_cons heq with ⟨v, rfl, -⟩ | ⟨v, -, rfl⟩
    · exact h (by simp)
    · rw [Text.cutAtLast?_eq_some_iff.mpr ⟨'/', hch, hlast, rfl⟩] at hcut
      exact absurd hcut (by simp)

/-- A lead without a slash leaves the modifier of a plain name as it is. -/
theorem Head.ownModifier?_led {lead : Text} (hslash : '/' ∉ lead) (start start' : Nat)
    (name : Text) :
    (ownModifier? ⟨start, Reading.led lead name⟩).map Modifier.written =
      (ownModifier? ⟨start', name⟩).map Modifier.written := by
  rw [written_ownModifier?, written_ownModifier?, Reading.led]
  split <;> rename_i hpositive
  · have hfront : '/' ∉ '-' :: lead := by simpa using hslash
    have hled := snd_cutAtLast?_append hfront
    have hname (t : Text) := @snd_cutAtLast?_append ['-'] (by simp) t
    rw [Reading.eq_of_positive? hpositive, ← List.cons_append, hled, ← List.singleton_append,
      hname]
  · rw [snd_cutAtLast?_append hslash]

end ClassList

namespace Environment

variable (env : Environment)

/-- The environment with another lead. -/
def withLead (lead : Text) : Environment :=
  { env with settings := { env.settings with lead := lead } }

/-- All utilities respect the lead. -/
def RespectsLead : Prop :=
  ∀ key, ∀ spec ∈ env.registry.utilities.specs key, spec.flags.respectsLead = true

variable {env} {lead : Text}

/-- The lead is no part of what is registered. -/
theorem registry_withLead : (env.withLead lead).registry = env.registry := rfl

theorem stripLead_of_not_carries {name : Text} (h : ¬ Reading.Carries lead name) :
    (env.withLead lead).stripLead name = (name, false) := by
  unfold stripLead
  dsimp only [withLead]
  split
  · rfl
  split <;> rename_i hpositive
  · split <;> rename_i hdrop
    · refine absurd (Or.inr ?_) h
      rw [Reading.eq_of_positive? hpositive, Text.dropLead?_eq_some_iff.mp hdrop]
      exact List.prefix_append ('-' :: lead) _
    · rfl
  · split <;> rename_i hdrop
    · refine absurd (Or.inl ?_) h
      rw [Text.dropLead?_eq_some_iff.mp hdrop]
      exact List.prefix_append ..
    · rfl

/-- A lead comes off the name that it was put in front of. -/
theorem stripLead_led (hne : lead ≠ []) (hhyphen : lead.head? ≠ some '-') (name : Text) :
    (env.withLead lead).stripLead (Reading.led lead name) = (name, true) := by
  have hlead : lead.isEmpty = false := List.isEmpty_eq_false_iff.mpr hne
  have hdrop (t : Text) : Text.dropLead? lead (lead ++ t) = some t :=
    Text.dropLead?_eq_some_iff.mpr rfl
  unfold stripLead Reading.led
  simp only [withLead, hlead, Bool.false_eq_true, if_false]
  cases hpositive : Reading.positive? name with
  | some body =>
    simp only [Reading.positive?, hdrop]
    rw [Reading.eq_of_positive? hpositive]
  | none => simp only [Reading.positive?_append_eq_none hne hhyphen, hdrop]

/-! ## What is offered

A utility renders the same whatever the lead is.  A name with the lead is offered all utilities, as
any name is where there is no lead, and a name without it is offered none. -/

theorem filter_allows_led (h : env.RespectsLead) (key : Text) :
    (env.registry.utilities.specs key).filter
        (fun spec => (env.withLead lead).allows spec.flags true) =
      env.registry.utilities.specs key := by
  refine List.filter_eq_self.mpr fun spec hspec => ?_
  simp [allows, h key spec hspec]

theorem filter_allows_unled (env : Environment) (key : Text) (led : Bool) :
    (env.registry.utilities.specs key).filter
        (fun spec => (env.withLead []).allows spec.flags led) =
      env.registry.utilities.specs key :=
  List.filter_eq_self.mpr fun _ _ => rfl

theorem filter_allows_of_not_led (h : env.RespectsLead) (hne : lead ≠ []) (key : Text) :
    (env.registry.utilities.specs key).filter
        (fun spec => (env.withLead lead).allows spec.flags false) = [] := by
  have hlead : lead.isEmpty = false := List.isEmpty_eq_false_iff.mpr hne
  refine List.filter_eq_nil_iff.mpr fun spec hspec => ?_
  simp [allows, withLead, hlead, h key spec hspec]

theorem offered_led (h : env.RespectsLead) (r : Reading) :
    (env.withLead lead).offered true r = (env.withLead []).offered false r := by
  unfold offered candidates
  dsimp only
  rw [registry_withLead, registry_withLead, filter_allows_led h, filter_allows_unled]
  rfl

theorem offered_of_not_led (h : env.RespectsLead) (hne : lead ≠ []) (r : Reading) :
    (env.withLead lead).offered false r = [] := by
  unfold offered candidates
  dsimp only
  rw [registry_withLead, filter_allows_of_not_led h hne]
  simp [staticCandidate?]

/-- The lead is not asked about when a bracketed value is rendered. -/
theorem renderBracketed?_withLead (u : LookupUtility) (value : Text) (negative : Bool)
    (m : Option ModifierText) :
    (env.withLead lead).renderBracketed? u value negative m =
      env.renderBracketed? u value negative m := by
  have hkinds (value : Text) (pinned : Bool) : ∀ kinds : List Value.Kind,
      (env.withLead lead).renderKinds? u value negative pinned m kinds =
        env.renderKinds? u value negative pinned m kinds := by
    intro kinds
    induction kinds with
    | nil => rfl
    | cons kind rest ih =>
      rw [renderKinds?, renderKinds?, ih]
      rfl
  unfold renderBracketed?
  simp only [hkinds]

theorem offeredBracketed_led (h : env.RespectsLead) (value : Text) (m : Option ModifierText)
    (r : Text × Bool) :
    (env.withLead lead).offeredBracketed value m true r =
      (env.withLead []).offeredBracketed value m false r := by
  unfold offeredBracketed bracketedCandidates
  dsimp only
  rw [registry_withLead, registry_withLead, filter_allows_led h, filter_allows_unled]
  simp only [renderBracketed?_withLead]

theorem offeredBracketed_of_not_led (h : env.RespectsLead) (hne : lead ≠ []) (value : Text)
    (m : Option ModifierText) (r : Text × Bool) :
    (env.withLead lead).offeredBracketed value m false r = [] := by
  unfold offeredBracketed bracketedCandidates
  dsimp only
  rw [registry_withLead, filter_allows_of_not_led h hne]
  rfl

/-- Readings that nothing is offered for find nothing. -/
theorem decide?_of_offered_eq_nil {led : Bool} : ∀ {readings : List Reading},
    (∀ r ∈ readings, env.offered led r = []) → env.decide? led readings = .error .notFound
  | [], _ => rfl
  | r :: rest, h => by
    obtain ⟨hr, hrest⟩ := List.forall_mem_cons.mp h
    rw [decide?_cons, hr]
    exact decide?_of_offered_eq_nil hrest

/-- Nor do the ways to read a name in front of a bracketed value. -/
theorem bracketedUtility_of_offered_eq_nil {name value : Text} {m : Option ModifierText}
    (h : ∀ r, env.offeredBracketed value m (env.stripLead name).2 r = []) :
    env.bracketedUtility name value m = .error .notFound := by
  rw [bracketedUtility_eq]
  induction bracketedReadings (env.stripLead name).1 with
  | nil => rfl
  | cons r rest ih =>
    rw [List.foldr_cons, h r]
    exact ih

/-- Readings decide with the lead as they do without one. -/
theorem decide?_led (h : env.RespectsLead) : ∀ readings : List Reading,
    (env.withLead lead).decide? true readings = (env.withLead []).decide? false readings
  | [] => rfl
  | r :: rest => by rw [decide?_cons, decide?_cons, offered_led h, decide?_led h rest]

/-! ## Names with the lead and names without it -/

/-- The lead is transparent.  Where all utilities respect it, a name that it was put in front of
has the same modifier and resolves to the same utility, or fails in the same way, as the name
does where there is no lead, and so does a bracketed value behind it.  A name that does not
carry the lead resolves to nothing. -/
theorem utility_withLead (env : Environment) (hrespects : env.RespectsLead) {lead : Text}
    (hne : lead ≠ []) (hslash : '/' ∉ lead) (hhyphen : lead.head? ≠ some '-') :
    (∀ name,
      (∀ start start', (ClassList.Head.ownModifier? ⟨start, Reading.led lead name⟩).map
          ClassList.Modifier.written =
        (ClassList.Head.ownModifier? ⟨start', name⟩).map ClassList.Modifier.written) ∧
      ∀ m,
        (env.withLead lead).utility (Reading.led lead name) m =
            (env.withLead []).utility name m ∧
          ∀ value, (env.withLead lead).bracketedUtility (Reading.led lead name) value m =
            (env.withLead []).bracketedUtility name value m) ∧
    ∀ name, ¬ Reading.Carries lead name → ∀ m,
      (env.withLead lead).utility name m =
          .error (if Reading.stripModifier? name m = none then .torn else .notFound) ∧
        ∀ value, (env.withLead lead).bracketedUtility name value m = .error .notFound := by
  refine ⟨fun name => ⟨fun start start' =>
    ClassList.Head.ownModifier?_led hslash start start' name, fun m => ⟨?_, fun value => ?_⟩⟩,
    fun name hcarries m => ⟨?_, fun value => ?_⟩⟩
  · have hstrip := @stripLead_led env lead hne hhyphen name
    have hplain := @stripLead_of_lead_eq_nil (env.withLead []) rfl name
    simp only [utility, hstrip, hplain, registry_withLead]
    cases Reading.all? env.registry.utilities UtilitySpec.isLookup name m with
    | none => rfl
    | some readings => exact decide?_led hrespects readings
  · have hstrip := @stripLead_led env lead hne hhyphen name
    have hplain := @stripLead_of_lead_eq_nil (env.withLead []) rfl name
    simp only [bracketedUtility_eq, hstrip, hplain, offeredBracketed_led hrespects]
  · have hstrip := @stripLead_of_not_carries env lead name hcarries
    simp only [utility, hstrip, Reading.all?]
    cases Reading.stripModifier? name m with
    | none => rfl
    | some stripped =>
      exact decide?_of_offered_eq_nil fun r _ => offered_of_not_led hrespects hne r
  · have hstrip := @stripLead_of_not_carries env lead name hcarries
    refine bracketedUtility_of_offered_eq_nil fun r => ?_
    rw [hstrip]
    exact offeredBracketed_of_not_led hrespects hne value m r

/-- The lead goes behind the hyphen of a negative value and comes off together with it. -/
theorem utility_withLead_negative :
    let value : LookupUtility :=
      ⟨[(['4'], .text ['1'])], [.any], { Flags.standard with negative := true },
        fun text _ => [(['u'], .scalar text)], none⟩
    let settings : Settings := ⟨[':'], [], .all false, .media, []⟩
    let env : Environment :=
      ⟨⟨.null⟩, settings, .colon, ⟨[(['m'], [⟨[], .lookup value⟩])], [], []⟩⟩
    let lead : Text := ['t', 'w', '-']
    let name : Text := ['-', 'm', '-', '4', '/', '5']
    let m : ModifierText := ⟨['5'], false⟩
    env.RespectsLead ∧ lead ≠ [] ∧ '/' ∉ lead ∧ lead.head? ≠ some '-' ∧
      Reading.led lead name = ['-', 't', 'w', '-', 'm', '-', '4', '/', '5'] ∧
      (env.withLead lead).utility (Reading.led lead name) (some m) =
        (env.withLead []).utility name (some m) ∧
      (∃ found, (env.withLead []).utility name (some m) = .ok found ∧
        found.tree = [(['u'], .scalar ['-', '1'])]) ∧
      ¬ Reading.Carries lead name ∧
      (env.withLead lead).utility name (some m) = .error .notFound := by
  intro value settings env lead name m
  have hrespects : env.RespectsLead := by
    intro key spec hspec
    have hspecs : env.registry.utilities.specs key ⊆ [⟨[], .lookup value⟩] := by
      unfold SpecTable.specs
      cases hfound : env.registry.utilities.lookup key with
      | none => simp
      | some specs =>
        have hentry := List.mem_singleton.mp (Keyed.mem_of_lookup hfound)
        rw [(Prod.mk.inj hentry).2]
        exact List.Subset.refl _
    rw [List.mem_singleton.mp (hspecs hspec)]
    rfl
  have hne : lead ≠ [] := by decide
  have hslash : '/' ∉ lead := by decide
  have hhyphen : lead.head? ≠ some '-' := by decide
  have hcarries : ¬ Reading.Carries lead name := by
    rintro (h | h)
    · exact absurd h (by decide)
    · exact absurd h (by decide)
  obtain ⟨hled, hother⟩ := utility_withLead env hrespects hne hslash hhyphen
  exact ⟨hrespects, hne, hslash, hhyphen, rfl, ((hled name).2 (some m)).1, ⟨_, rfl, rfl⟩, hcarries,
    (hother name hcarries (some m)).1⟩

end Environment
end UtilityCss
