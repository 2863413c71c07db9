import Mathlib.Data.List.Forall2
import UtilityCss.Proofs.Evaluation.Registration

/-!
# Classes that are registered as style trees

A plain name is first of all looked up as it stands, with its modifier on it and without a value.
If anything registered under the name is offered for that reading the reading decides, whatever
is registered under other keys.

Style trees that are registered under one name are offered together, merged, next to what takes
values.  So with only one of them kept, and all that takes values, the same decision is made about
that one.
-/

namespace UtilityCss

/-! ## Style trees among specs -/

namespace UtilitySpec

/-- The style tree that is registered, with its flags. -/
def fixed? (spec : UtilitySpec) : Option (StyleTree × Flags) :=
  match spec.rule with
  | .fixed tree flags => some (tree, flags)
  | .lookup _ => none

/-- The style trees among specs, with their flags. -/
def statics (specs : List UtilitySpec) : List (StyleTree × Flags) := specs.filterMap fixed?

theorem fixed?_eq_none_iff {spec : UtilitySpec} : spec.fixed? = none ↔ spec.isLookup = true := by
  unfold fixed? isLookup
  cases spec.rule <;> simp

end UtilitySpec

/-- The reading of a name as it stands. -/
def Reading.exact (name : Text) : Reading := ⟨name, none, none, false, none⟩

namespace Environment

variable {env : Environment}

/-! ### One of several -/

section

variable (env) (led : Bool)

/-- The specs that a name reaches that has the configured beginning or does not. -/
def reached (specs : List UtilitySpec) : List UtilitySpec :=
  specs.filter fun spec => env.allows spec.flags led

/-- Is the spec a style tree that such a name reaches? -/
def isStatic (spec : UtilitySpec) : Bool := env.allows spec.flags led && !spec.isLookup

/-- What else there is among specs. -/
def besides (specs : List UtilitySpec) : List UtilitySpec :=
  specs.filter fun spec => !env.isStatic led spec

/-- The specs with only one of these style trees kept, for each of them in order. -/
def singled : List UtilitySpec → List (List UtilitySpec)
  | [] => []
  | spec :: rest =>
    if env.isStatic led spec then (spec :: env.besides led rest) :: singled rest
    else (singled rest).map (spec :: ·)

variable {env led} {spec : UtilitySpec} {specs : List UtilitySpec}

theorem besides_of_isStatic (h : env.isStatic led spec = true) (specs : List UtilitySpec) :
    env.besides led (spec :: specs) = env.besides led specs := by
  rw [besides, List.filter_cons, h]
  rfl

theorem besides_of_not_isStatic (h : env.isStatic led spec = false) (specs : List UtilitySpec) :
    env.besides led (spec :: specs) = spec :: env.besides led specs := by
  rw [besides, List.filter_cons, h]
  rfl

theorem besides_besides (specs : List UtilitySpec) :
    env.besides led (env.besides led specs) = env.besides led specs := by
  rw [besides, besides, List.filter_filter]
  simp only [Bool.and_self]

theorem statics_of_isStatic (h : env.isStatic led spec = true) : ∃ static, ∀ specs,
    UtilitySpec.statics (env.reached led (spec :: specs)) =
      static :: UtilitySpec.statics (env.reached led specs) := by
  rw [isStatic, Bool.and_eq_true, Bool.not_eq_true'] at h
  obtain ⟨hallows, hlookup⟩ := h
  obtain ⟨static, hstatic⟩ := Option.ne_none_iff_exists'.mp
    (mt UtilitySpec.fixed?_eq_none_iff.mp (by rw [hlookup]; exact Bool.false_ne_true))
  refine ⟨static, fun specs => ?_⟩
  rw [reached, List.filter_cons, if_pos hallows, UtilitySpec.statics,
    List.filterMap_cons_some hstatic]
  rfl

theorem statics_of_not_isStatic (h : env.isStatic led spec = false) (specs : List UtilitySpec) :
    UtilitySpec.statics (env.reached led (spec :: specs)) =
      UtilitySpec.statics (env.reached led specs) := by
  rw [reached, List.filter_cons]
  split
  · rename_i hallows
    rw [isStatic, hallows, Bool.true_and, Bool.not_eq_false'] at h
    rw [UtilitySpec.statics, List.filterMap_cons_none (UtilitySpec.fixed?_eq_none_iff.mpr h)]
    rfl
  · rfl

theorem statics_besides (specs : List UtilitySpec) :
    UtilitySpec.statics (env.reached led (env.besides led specs)) = [] := by
  induction specs with
  | nil => rfl
  | cons spec rest ih =>
    cases hspec : env.isStatic led spec with
    | true => rw [besides_of_isStatic hspec, ih]
    | false => rw [besides_of_not_isStatic hspec, statics_of_not_isStatic hspec, ih]

variable (env led) in
/-- What is kept is the one style tree, and everything else. -/
theorem forall₂_singled : ∀ specs : List UtilitySpec, List.Forall₂
    (fun kept static => UtilitySpec.statics (env.reached led kept) = [static] ∧
      env.besides led kept = env.besides led specs)
    (env.singled led specs) (UtilitySpec.statics (env.reached led specs))
  | [] => .nil
  | spec :: rest => by
    have hrest := forall₂_singled rest
    rw [singled]
    cases hspec : env.isStatic led spec with
    | false =>
      rw [if_neg Bool.false_ne_true, statics_of_not_isStatic hspec]
      refine List.forall₂_map_left_iff.mpr (hrest.imp fun kept static h => ?_)
      rw [statics_of_not_isStatic hspec, besides_of_not_isStatic hspec,
        besides_of_not_isStatic hspec, h.2]
      exact ⟨h.1, rfl⟩
    | true =>
      obtain ⟨static, hstatic⟩ := statics_of_isStatic hspec
      rw [if_pos rfl, hstatic, besides_of_isStatic hspec]
      refine .cons ⟨?_, ?_⟩ hrest
      · rw [hstatic, statics_besides]
      · rw [besides_of_isStatic hspec, besides_besides]

/-- What is kept was there. -/
theorem mem_of_mem_singled {kept : List UtilitySpec} : ∀ {specs : List UtilitySpec},
    kept ∈ env.singled led specs → ∀ spec ∈ kept, spec ∈ specs
  | [], hkept, _, _ => absurd hkept List.not_mem_nil
  | first :: rest, hkept, spec, hspec => by
    rw [singled] at hkept
    split at hkept
    · rcases List.mem_cons.mp hkept with rfl | hkept
      · rcases List.mem_cons.mp hspec with rfl | hspec
        · exact List.mem_cons_self
        · exact List.mem_cons_of_mem _ (List.mem_of_mem_filter hspec)
      · exact List.mem_cons_of_mem _ (mem_of_mem_singled hkept spec hspec)
    · obtain ⟨more, hmore, rfl⟩ := List.mem_map.mp hkept
      rcases List.mem_cons.mp hspec with rfl | hspec
      · exact List.mem_cons_self
      · exact List.mem_cons_of_mem _ (mem_of_mem_singled hmore spec hspec)

end

/-! ### What is offered -/

/-- The style trees among specs make one candidate, which has the flags of the first. -/
theorem staticCandidate?_of_statics {specs : List UtilitySpec} {tree : StyleTree} {flags : Flags}
    {more : List (StyleTree × Flags)}
    (h : UtilitySpec.statics specs = (tree, flags) :: more) : ∃ plugin,
      staticCandidate? specs = some ⟨⟨plugin, .fixed tree flags⟩,
        (more.map Prod.fst).foldl StyleTree.merge tree, true⟩ := by
  induction specs with
  | nil => exact absurd h (by simp [UtilitySpec.statics])
  | cons spec rest ih =>
    obtain ⟨plugin, ⟨t, f⟩ | u⟩ := spec
    · obtain ⟨hstatic, hmore⟩ := List.cons.inj h
      obtain ⟨rfl, rfl⟩ := Prod.mk.inj hstatic
      refine ⟨plugin, ?_⟩
      have hfold : ∀ (rest : List UtilitySpec) (t : StyleTree),
          rest.foldl (fun tree other =>
            match other.rule with
            | .fixed more _ => StyleTree.merge tree more
            | .lookup _ => tree) t =
          ((UtilitySpec.statics rest).map Prod.fst).foldl StyleTree.merge t := by
        intro rest
        induction rest with
        | nil => exact fun _ => rfl
        | cons spec rest ih =>
          obtain ⟨p, rule⟩ := spec
          cases rule <;> exact fun t => ih _
      rw [staticCandidate?, ← hmore]
      exact congrArg some (congrArg (Candidate.mk _ · true) (hfold rest t))
    · exact ih h

/-- Nothing is offered under a name under which nothing is registered. -/
theorem has_of_offered {led : Bool} {r : Reading} (h : env.offered led r ≠ []) :
    Keyed.has r.key env.registry.utilities = true := by
  cases hlookup : env.registry.utilities.lookup r.key with
  | some specs => rw [Keyed.has, hlookup]; rfl
  | none =>
    have hspecs : env.registry.utilities.specs r.key = [] := by
      rw [SpecTable.specs, hlookup]
      rfl
    rw [offered, hspecs] at h
    refine absurd ?_ h
    simp [candidates, staticCandidate?]

/-- What is offered for a plain name as it stands, the configured beginning apart, decides what
the name resolves to if its modifier can be taken off it. -/
theorem choose?_exact {name : Slice} {m : Option ClassList.Modifier} {key : Text} {led : Bool}
    (hlead : env.stripLead name.text = (key, led))
    (hstrip : Reading.stripModifier? key (m.map ClassList.Modifier.written) ≠ none)
    (hoffered : env.offered led (.exact key) ≠ []) :
    Candidate.choose? key (env.offered led (.exact key)) =
      some (env.utilityOf (.plain name m)) := by
  obtain ⟨stripped, hstripped⟩ := Option.ne_none_iff_exists'.mp hstrip
  -- the name as it stands comes first
  obtain ⟨more, hmore⟩ : ∃ more, Reading.all? env.registry.utilities UtilitySpec.isLookup key
      (m.map ClassList.Modifier.written) = some (.exact key :: more) := by
    have hwhole : ∃ rest,
        Reading.whole key stripped (m.map ClassList.Modifier.written) = .exact key :: rest :=
      ⟨_, rfl⟩
    obtain ⟨rest, hrest⟩ := hwhole
    rw [Reading.all?, hstripped, Option.map_some, hrest]
    simp only [List.filter_cons, has_of_offered hoffered, if_true, List.cons_append,
      List.eraseDups_cons]
    exact ⟨_, rfl⟩
  rcases choose?_offered env led (.exact key) with ⟨hnone, -⟩ | ⟨decision, hchoose, -⟩
  · exact absurd hnone hoffered
  · have hutility : env.utilityOf (.plain name m) = decision := by
      show env.utility name.text (m.map ClassList.Modifier.written) = decision
      simp only [utility, hlead, hmore]
      rw [decide?_cons, hchoose, Option.getD_some]
    rw [hutility]
    exact hchoose

/-- The modifier of a closed name can be taken off it. -/
theorem stripModifier?_of_closed {name : Slice} {m : Option ClassList.Modifier} {start : Nat}
    {t after key : Text} {led : Bool} (hlead : env.stripLead name.text = (key, led))
    (hlaid : (ClassList.Head.plain name m).Laid start t after)
    (hclosed : (ClassList.Head.plain name m).closed = true) :
    Reading.stripModifier? key (m.map ClassList.Modifier.written) ≠ none := by
  obtain ⟨core, suffix, hname, hspells⟩ := hlaid.spells hclosed
  obtain ⟨negative, front, rest, hends, hstrip⟩ := env.stripLead_eq name.text
  obtain ⟨core', suffix', taken, hparted⟩ :=
    Reading.exists_parted_of_suffix hspells (hname.symm.trans hends) negative
  rw [← hstrip, hlead] at hparted
  rw [hparted.stripModifier?]
  exact Option.some_ne_none _

/-- A plain name under which one style tree is registered, and nothing else, is that utility. -/
theorem utilityOf_of_specs {name : Slice} {m : Option ClassList.Modifier} {start : Nat}
    {t after : Text} (hlead : env.settings.lead = [])
    (hlaid : (ClassList.Head.plain name m).Laid start t after)
    (hclosed : (ClassList.Head.plain name m).closed = true) {plugin : Text} {tree : StyleTree}
    {flags : Flags}
    (hspecs : env.registry.utilities.specs name.text = [⟨plugin, .fixed tree flags⟩]) :
    env.utilityOf (.plain name m) = .ok ⟨name.text, ⟨plugin, .fixed tree flags⟩, tree⟩ := by
  have hallows : env.allows flags false = true := by rw [allows, hlead]; rfl
  have hoffered : env.offered false (.exact name.text) =
      [⟨⟨plugin, .fixed tree flags⟩, tree, true⟩] := by
    show env.candidates (env.registry.utilities.specs name.text) _ _ = _
    rw [hspecs, candidates, List.filter_cons]
    simp only [UtilitySpec.flags, hallows, if_true, List.filter_nil, Reading.exact]
    rfl
  have hstrip := stripLead_of_lead_eq_nil hlead name.text
  have hchoose := choose?_exact hstrip (stripModifier?_of_closed hstrip hlaid hclosed)
    (by rw [hoffered]; simp)
  rw [hoffered] at hchoose
  exact (Option.some.inj hchoose).symm

variable (env) in
/-- What utilities that take values make of a name as it stands. -/
def valued (led : Bool) (key : Text) (specs : List UtilitySpec) : List Candidate :=
  (env.reached led specs).filterMap fun spec =>
    match spec.rule with
    | .fixed .. => none
    | .lookup u => (env.renderEntry? u (.exact key)).map fun tree => ⟨spec, tree, true⟩

/-- Style trees make nothing of it. -/
theorem valued_besides (led : Bool) (key : Text) (specs : List UtilitySpec) :
    env.valued led key (env.besides led specs) = env.valued led key specs := by
  unfold valued reached besides
  simp only [List.filterMap_filter]
  refine List.filterMap_congr fun spec _ => ?_
  obtain ⟨plugin, tree | u⟩ := spec
  · simp
  · simp [isStatic, UtilitySpec.isLookup]

/-- What is registered for a name as it stands: its style trees together, and what utilities that
take values make of it. -/
theorem candidates_exact (key : Text) {led : Bool} {specs : List UtilitySpec} {tree : StyleTree}
    {flags : Flags} {more : List (StyleTree × Flags)}
    (hstatics : UtilitySpec.statics (env.reached led specs) = (tree, flags) :: more) :
    ∃ plugin, env.candidates specs (.exact key) led =
      ⟨⟨plugin, .fixed tree flags⟩, (more.map Prod.fst).foldl StyleTree.merge tree, true⟩ ::
        env.valued led key specs := by
  obtain ⟨plugin, hcandidate⟩ := staticCandidate?_of_statics hstatics
  refine ⟨plugin, ?_⟩
  rw [reached] at hcandidate
  rw [candidates]
  simp only [Reading.exact, Option.isSome_none, Bool.or_self, Bool.false_eq_true, if_false,
    hcandidate]
  rfl

/-- A plain name under which style trees are registered is the utility of these trees merged, or
ambiguous if it could also mean something that takes values. -/
theorem utilityOf_of_statics {name : Slice} {m : Option ClassList.Modifier} {key : Text}
    {led : Bool} (hlead : env.stripLead name.text = (key, led))
    (hstrip : Reading.stripModifier? key (m.map ClassList.Modifier.written) ≠ none)
    {tree : StyleTree} {flags : Flags} {more : List (StyleTree × Flags)}
    (hstatics : UtilitySpec.statics (env.reached led (env.registry.utilities.specs key)) =
      (tree, flags) :: more) :
    (env.valued led key (env.registry.utilities.specs key) = [] ∧ ∃ plugin,
        env.utilityOf (.plain name m) = .ok ⟨key, ⟨plugin, .fixed tree flags⟩,
          (more.map Prod.fst).foldl StyleTree.merge tree⟩) ∨
      env.valued led key (env.registry.utilities.specs key) ≠ [] ∧
        env.utilityOf (.plain name m) = .error .ambiguous := by
  obtain ⟨plugin, hcandidates⟩ := candidates_exact key hstatics
  have hoffered : env.offered led (.exact key) = _ := hcandidates
  have hchoose := choose?_exact hlead hstrip (by rw [hoffered]; exact List.cons_ne_nil _ _)
  rcases choose?_offered env led (.exact key) with ⟨hnone, -⟩ | ⟨decision, hdecision, hdecides⟩
  · rw [hoffered] at hnone
    exact absurd hnone (List.cons_ne_nil _ _)
  · obtain rfl := Option.some.inj (hdecision.symm.trans hchoose)
    unfold Decides at hdecides
    rw [hoffered] at hdecides
    rcases hdecides with ⟨c, hone, hfound⟩ | ⟨hmany, hfound⟩
    · obtain ⟨rfl, hnil⟩ := List.cons.inj hone
      exact Or.inl ⟨hnil, plugin, hfound⟩
    · refine Or.inr ⟨?_, hfound⟩
      intro hnil
      rw [hnil] at hmany
      exact absurd hmany (by simp)

end Environment
end UtilityCss
