import UtilityCss.ClassList.Listing
import UtilityCss.Proofs.Evaluation.Alike
import UtilityCss.Proofs.Evaluation.Verdict

/-!
# What a registration can affect

A name is looked up under a few keys only: under the name and under what is left of it
without its modifier, each as it stands and without its hyphen, and, for specs that take
values, under whatever stands in front of one of the hyphens of what is left.  A spec that is
registered under another key leaves alone what the name resolves to, whatever else is
registered under that key.

Keys in front of a hyphen count for specs that take values, but not for static ones.  A
static spec does make its key known, but only readings without a value ask for known keys, and a
reading with a value has no use for it.
-/

namespace UtilityCss

/-! ## Tables with one spec more -/

namespace SpecTable

variable {α : Type} (table : SpecTable α) {key other : Text}

theorem has_push_of_ne (h : other ≠ key) (spec : α) :
    Keyed.has other (table.push key spec) = Keyed.has other table := by
  rw [Keyed.has, Keyed.has, push, Keyed.lookup_put_of_ne h]

/-- A spec that takes no values adds none under any key. -/
theorem any_specs_push {isLookup : α → Bool} {spec : α}
    (h : other = key → isLookup spec = false) :
    ((table.push key spec).specs other).any isLookup = (table.specs other).any isLookup := by
  by_cases hkey : other = key
  · rw [hkey, specs_push_self, List.any_append, List.any_cons, h hkey]
    simp
  · rw [specs_push_of_ne table hkey]

end SpecTable

namespace Reading

/-! ## The keys of a name -/

/-- The keys under which a name with this core is looked up.  Specs that take values are also looked
up under what stands in front of a hyphen. -/
inductive Consulted (name core : Text) (takesValues : Bool) (key : Text) : Prop where
  | name : key = name → Consulted name core takesValues key
  | positiveName : positive? name = some key → Consulted name core takesValues key
  | core : key = core → Consulted name core takesValues key
  | positiveCore : positive? core = some key → Consulted name core takesValues key
  | front (value : Text) : takesValues = true → (positive? core).getD core = key ++ '-' :: value →
    Consulted name core takesValues key

theorem key_of_mem_unvalued {name : Text} {m : Option ModifierText} {r : Reading}
    (h : r ∈ unvalued name m) : r.key = name ∨ positive? name = some r.key := by
  rcases List.mem_cons.mp h with rfl | h
  · exact Or.inl rfl
  · obtain ⟨key, hkey, rfl⟩ := List.mem_map.mp h
    exact Or.inr (Option.mem_toList.mp hkey)

variable {name core suffix key : Text} {m taken : Option ModifierText} {takesValues : Bool}

/-- The readings without a value ask for keys of the name. -/
theorem Parted.consulted_of_mem_wholes (h : Parted name m core suffix taken) {r : Reading}
    (hr : r ∈ wholes core suffix taken) : Consulted name core takesValues r.key := by
  rw [wholes, ← h.append] at hr
  rcases List.mem_append.mp hr with hr | hr
  · exact (key_of_mem_unvalued hr).elim .name .positiveName
  · split at hr
    · exact (key_of_mem_unvalued hr).elim .core .positiveCore
    · exact absurd hr List.not_mem_nil

/-- A reading with a value asks for a key in front of a hyphen. -/
theorem Splits.consulted {r : Reading} (h : r.Splits core suffix taken) :
    Consulted name core true r.key := by
  obtain ⟨value, -, -, -, hcut⟩ := h.split
  have hboth := (sign_append_positive? core).symm.trans hcut
  rw [h.negative, List.append_assoc] at hboth
  exact .front value rfl (List.append_cancel_left hboth)

variable {α : Type} {table : SpecTable α} {isLookup : α → Bool} {spec : α}

/-- A spec under a key that is not asked for adds no reading. -/
theorem Parted.all?_push (h : Parted name m core suffix taken)
    (hkey : ¬ Consulted name core (isLookup spec) key) :
    all? (table.push key spec) isLookup name m = all? table isLookup name m := by
  have hstripped : ∀ stripped, Reading.stripModifier? name m = some stripped →
      stripped = taken.map fun _ => core :=
    fun stripped hstrip => Option.some.inj (hstrip.symm.trans h.stripModifier?)
  refine all?_congr ?_ ?_
  · intro stripped hstrip r hr
    rw [hstripped stripped hstrip, whole_eq h] at hr
    refine table.has_push_of_ne ?_ spec
    rintro rfl
    exact hkey (h.consulted_of_mem_wholes hr)
  · intro stripped hstrip r hr
    rw [hstripped stripped hstrip, mem_split h] at hr
    refine table.any_specs_push ?_
    rintro rfl
    rw [Bool.eq_false_iff]
    exact fun hlookup => hkey (hlookup ▸ hr.consulted)

/-- A reading that asks for such a key after all has a value, and the spec takes none. -/
theorem Parted.valued_of_key (h : Parted name m core suffix taken)
    (hkey : ¬ Consulted name core takesValues key) {readings : List Reading}
    (hall : all? table isLookup name m = some readings) {r : Reading} (hr : r ∈ readings)
    (hrkey : r.key = key) : takesValues = false ∧ r.value.isSome = true := by
  subst hrkey
  obtain ⟨_, hsome, splits, rfl, hsplits, -⟩ := h.listed table isLookup
  obtain rfl := Option.some.inj (hall.symm.trans hsome)
  rcases List.mem_append.mp hr with hr | hr
  · exact absurd (h.consulted_of_mem_wholes (List.mem_filter.mp hr).1) hkey
  · have hsplit := ((hsplits r).mp hr).1
    obtain ⟨value, -, hvalue, -⟩ := hsplit.split
    refine ⟨Bool.eq_false_iff.mpr fun htakes => hkey (htakes ▸ hsplit.consulted), ?_⟩
    rw [hvalue]
    rfl

end Reading

namespace Environment

variable (env : Environment)

/-! ## Candidates with one spec more -/

/-- A static utility is no candidate for a reading with a value. -/
theorem candidates_snoc {specs : List UtilitySpec} {spec : UtilitySpec} {r : Reading}
    (hspec : spec.isLookup = false) (hvalue : r.value.isSome = true) (led : Bool) :
    env.candidates (specs ++ [spec]) r led = env.candidates specs r led := by
  obtain ⟨plugin, rule | rule⟩ := spec
  · simp only [candidates, hvalue, Bool.true_or, if_true, List.filter_append,
      List.filterMap_append, List.filter_cons, List.filter_nil]
    split <;> simp
  · exact absurd hspec (by simp [UtilitySpec.isLookup])

/-- A static variant is no candidate for a reading with a value. -/
theorem variantCandidates_snoc {specs : List VariantSpec} {spec : VariantSpec} {r : Reading}
    (hspec : spec.isLookup = false) (hvalue : r.value.isSome = true) :
    variantCandidates (specs ++ [spec]) r = variantCandidates specs r := by
  obtain ⟨plugin, rule | rule, post⟩ := spec
  · simp [variantCandidates, hvalue]
  · exact absurd hspec (by simp [VariantSpec.isLookup])

variable {env} {env' : Environment}

/-- Readings decide the same if the same is offered for them. -/
theorem decide?_congr {led : Bool} {readings : List Reading}
    (h : ∀ r ∈ readings, env'.offered led r = env.offered led r) :
    env'.decide? led readings = env.decide? led readings := by
  induction readings with
  | nil => rfl
  | cons r rest ih =>
    obtain ⟨hr, hrest⟩ := List.forall_mem_cons.mp h
    rw [decide?_cons, decide?_cons, hr, ih hrest]

theorem decideVariant?_congr {readings : List Reading}
    (h : ∀ r ∈ readings, env'.offeredVariants r = env.offeredVariants r) :
    env'.decideVariant? readings = env.decideVariant? readings := by
  induction readings with
  | nil => rfl
  | cons r rest ih =>
    obtain ⟨hr, hrest⟩ := List.forall_mem_cons.mp h
    rw [decideVariant?_cons, decideVariant?_cons, hr, ih hrest]

variable (env)

/-- The environment with one utility more. -/
def withUtility (key : Text) (spec : UtilitySpec) : Environment :=
  env.withRegistry { env.registry with utilities := env.registry.utilities.push key spec }

/-- The environment with one variant more. -/
def withVariant (key : Text) (spec : VariantSpec) : Environment :=
  env.withRegistry { env.registry with variants := env.registry.variants.push key spec }

variable {env} {core suffix key : Text} {m taken : Option ModifierText}

theorem stripLead_of_lead_eq_nil (h : env.settings.lead = []) (name : Text) :
    env.stripLead name = (name, false) := by
  simp [stripLead, h]

/-- A plain name of a utility does not see a utility under a key that it is not looked up under. -/
theorem utility_withUtility {name : Text} {spec : UtilitySpec} (hlead : env.settings.lead = [])
    (h : Reading.Parted name m core suffix taken)
    (hkey : ¬ Reading.Consulted name core spec.isLookup key) :
    (env.withUtility key spec).utility name m = env.utility name m := by
  have hstrip : (env.withUtility key spec).stripLead name = (name, false) :=
    stripLead_of_lead_eq_nil hlead name
  obtain ⟨readings, hall, -⟩ := h.listed env.registry.utilities UtilitySpec.isLookup
  have hall' : Reading.all? (env.withUtility key spec).registry.utilities UtilitySpec.isLookup
      name m = some readings := (h.all?_push hkey).trans hall
  simp only [utility, hstrip, stripLead_of_lead_eq_nil hlead, hall, hall']
  refine decide?_congr fun r hr => ?_
  show env.candidates ((env.registry.utilities.push key spec).specs r.key) r false =
    env.offered false r
  by_cases hrkey : r.key = key
  · obtain ⟨hspec, hvalue⟩ := h.valued_of_key hkey hall hr hrkey
    rw [hrkey, SpecTable.specs_push_self, env.candidates_snoc hspec hvalue, offered, hrkey]
  · rw [SpecTable.specs_push_of_ne _ hrkey, offered]

/-- Nor does a plain name of a variant see a variant under such a key. -/
theorem variant_withVariant {name : Text} {spec : VariantSpec}
    (h : Reading.Parted name m core suffix taken)
    (hkey : ¬ Reading.Consulted name core spec.isLookup key) :
    (env.withVariant key spec).variant name m = env.variant name m := by
  obtain ⟨readings, hall, -⟩ := h.listed env.registry.variants VariantSpec.isLookup
  have hall' : Reading.all? (env.withVariant key spec).registry.variants VariantSpec.isLookup
      name m = some readings := (h.all?_push hkey).trans hall
  simp only [variant, hall, hall']
  refine decideVariant?_congr fun r hr => ?_
  show variantCandidates ((env.registry.variants.push key spec).specs r.key) r =
    env.offeredVariants r
  by_cases hrkey : r.key = key
  · obtain ⟨hspec, hvalue⟩ := h.valued_of_key hkey hall (List.mem_of_mem_filter hr) hrkey
    rw [hrkey, SpecTable.specs_push_self, variantCandidates_snoc hspec hvalue, offeredVariants,
      hrkey]
  · rw [SpecTable.specs_push_of_ne _ hrkey, offeredVariants]

/-- In front of a bracketed value only the name and the name without its hyphen are keys. -/
theorem bracketedUtility_withUtility {name : Text} {spec : UtilitySpec}
    (hlead : env.settings.lead = []) (hname : key ≠ name)
    (hpositive : Reading.positive? name ≠ some key) (value : Text) (m : Option ModifierText) :
    (env.withUtility key spec).bracketedUtility name value m =
      env.bracketedUtility name value m := by
  have hstrip : (env.withUtility key spec).stripLead name = (name, false) :=
    stripLead_of_lead_eq_nil hlead name
  have hoffered : ∀ r ∈ bracketedReadings name,
      (env.withUtility key spec).offeredBracketed value m false r =
        env.offeredBracketed value m false r := by
    intro r hr
    have hne : r.1 ≠ key := by
      rcases List.mem_cons.mp hr with rfl | hr
      · exact hname.symm
      · obtain ⟨k, hk, rfl⟩ := Option.map_eq_some_iff.mp (Option.mem_toList.mp hr)
        rintro rfl
        exact hpositive hk
    unfold offeredBracketed bracketedCandidates withUtility
    simp only [renderBracketed?_withRegistry, registry_withRegistry,
      SpecTable.specs_push_of_ne _ hne]
    rfl
  rw [bracketedUtility_eq, bracketedUtility_eq, hstrip, stripLead_of_lead_eq_nil hlead]
  refine List.foldr_ext _ _ _ fun r hr d => ?_
  rw [hoffered r hr]

theorem bracketedVariant_withVariant {name : Text} {spec : VariantSpec} (hname : key ≠ name)
    (value : Text) (m : Option ModifierText) :
    (env.withVariant key spec).bracketedVariant name value m =
      env.bracketedVariant name value m := by
  unfold bracketedVariant withVariant
  rw [registry_withRegistry, SpecTable.specs_push_of_ne _ hname.symm]

/-! ## Registrations under other keys -/

/-- A registration affects only the names that it can match.  A name ends with its modifier, which
comes off unless it is all of the name.  One utility more, or one variant more, changes
nothing for a name that is not looked up under its key, nor for bracketed values behind
another name. -/
theorem resolve_register (env : Environment) (hlead : env.settings.lead = []) (key : Text) :
    (∀ spec : UtilitySpec,
      (∀ core suffix m, ModifierText.Spells suffix m →
        ¬ Reading.Consulted (core ++ suffix) (if core = [] then suffix else core) spec.isLookup
          key →
        (env.withUtility key spec).utility (core ++ suffix) m = env.utility (core ++ suffix) m) ∧
      ∀ name value m, key ≠ name → Reading.positive? name ≠ some key →
        (env.withUtility key spec).bracketedUtility name value m =
          env.bracketedUtility name value m) ∧
    ∀ spec : VariantSpec,
      (∀ core suffix m, ModifierText.Spells suffix m →
        ¬ Reading.Consulted (core ++ suffix) (if core = [] then suffix else core) spec.isLookup
          key →
        (env.withVariant key spec).variant (core ++ suffix) m = env.variant (core ++ suffix) m) ∧
      ∀ name value m, key ≠ name → Reading.positive? name ≠ some key →
        (env.withVariant key spec).bracketedVariant name value m =
          env.bracketedVariant name value m := by
  refine ⟨fun spec => ⟨?_, ?_⟩, fun spec => ⟨?_, ?_⟩⟩
  · intro core suffix m hspells hkey
    exact utility_withUtility hlead (Reading.parted_append core hspells) hkey
  · intro name value m hname hpositive
    exact bracketedUtility_withUtility hlead hname hpositive value m
  · intro core suffix m hspells hkey
    exact variant_withVariant (Reading.parted_append core hspells) hkey
  · intro name value m hname _
    exact bracketedVariant_withVariant hname value m

/-- A static utility under a key in front of a hyphen is not in the way of a shorter key. -/
theorem resolve_register_static :
    let value : LookupUtility :=
      ⟨[(['x', '-', '4'], .text ['1'])], [.any], .standard,
        fun text _ => [(['u'], .scalar text)], none⟩
    let settings : Settings := ⟨[':'], [], .all false, .media, []⟩
    let env : Environment :=
      ⟨⟨.null⟩, settings, .colon, ⟨[(['m'], [⟨[], .lookup value⟩])], [], []⟩⟩
    let static : UtilitySpec := ⟨[], .fixed [(['w'], .scalar ['2'])] .standard⟩
    let core : Text := ['m', '-', 'x', '-', '4']
    let suffix : Text := ['/', '5']
    let m : ModifierText := ⟨['5'], false⟩
    env.settings.lead = [] ∧ ModifierText.Spells suffix (some m) ∧
      ¬ Reading.Consulted (core ++ suffix) core static.isLookup ['m', '-', 'x'] ∧
      (env.withUtility ['m', '-', 'x'] static).utility (core ++ suffix) (some m) =
        env.utility (core ++ suffix) (some m) ∧
      ∃ found, env.utility (core ++ suffix) (some m) = .ok found ∧
        found.tree = [(['u'], .scalar ['1'])] := by
  intro value settings env static core suffix m
  have hspells : ModifierText.Spells suffix (some m) := ⟨')', rfl, rfl⟩
  have hkey : ¬ Reading.Consulted (core ++ suffix) core static.isLookup ['m', '-', 'x'] := by
    rintro (h | h | h | h | ⟨_, h, -⟩) <;> exact absurd h (by decide)
  exact ⟨rfl, hspells, hkey,
    ((resolve_register env rfl ['m', '-', 'x']).1 static).1 core suffix (some m) hspells hkey,
    _, rfl, rfl⟩

/-- A modifier that is all of the name stays on, so a key in front of a hyphen of the modifier is
asked for, although nothing of the name is left without its modifier. -/
theorem resolve_register_modifier_only :
    let name : Text := ['/', 'a', '-', 'b']
    let m : ModifierText := ⟨['a', '-', 'b'], false⟩
    let settings : Settings := ⟨[':'], [], .all false, .media, []⟩
    let env : Environment := ⟨⟨.null⟩, settings, .colon, .empty⟩
    let value : UtilitySpec :=
      ⟨[], .lookup ⟨[(['b'], .text ['1'])], [.any], .standard,
        fun text _ => [(['u'], .scalar text)], none⟩⟩
    (∃ n ∈ (ClassList.read .colon name).listing, n.closed = true ∧
        n.shape.head? =
          some (.plain ⟨0, name⟩ (some ⟨⟨1, ['a', '-', 'b']⟩, false, true⟩))) ∧
      ModifierText.Spells name (some m) ∧
      ¬ Reading.Consulted name [] value.isLookup ['/', 'a'] ∧
      (env.withUtility ['/', 'a'] value).utility name (some m) ≠ env.utility name (some m) := by
  intro name m settings env value
  refine ⟨⟨_, List.Mem.head _, rfl, rfl⟩, ⟨')', rfl, rfl⟩, ?_, ?_⟩
  · rintro (h | h | h | h | ⟨_, -, h⟩) <;> exact absurd h (by simp [name, Reading.positive?])
  · have hbefore : env.utility name (some m) = .error .notFound := rfl
    have hafter : ∃ found,
        (env.withUtility ['/', 'a'] value).utility name (some m) = .ok found := ⟨_, rfl⟩
    obtain ⟨found, hfound⟩ := hafter
    rw [hbefore, hfound]
    simp

end Environment
end UtilityCss
