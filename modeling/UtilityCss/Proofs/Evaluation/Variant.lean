import UtilityCss.Proofs.ClassList.Layout
import UtilityCss.Proofs.Evaluation.Reading
import UtilityCss.Proofs.Evaluation.Report
import UtilityCss.Proofs.Evaluation.Wrapper
import UtilityCss.Proofs.Registry.WellKeyed

/-!
# What variants resolve to

The reader leaves variants closed, with every modifier at the end of its name.  So
nothing about a variant is ever torn, and resolving it either succeeds without a note or
fails with one.  The wrapper of a variant that resolves consists of layers that the
registry supplies; if the registered variants have templates and change trees only into
trees with something in them, these layers last.
-/

namespace UtilityCss

/-! ## Variants as the reader leaves them -/

namespace ClassList

/-- Every bracket is closed, and the modifier of a plain name is the end of the name. -/
def Head.Sound : Head → Prop
  | .plain name (some m) =>
    m.closed = true ∧ ∃ core u, name.text = core ++ u ∧ m.written.width = Text.bytes u
  | head => head.closed = true

theorem Head.Sound.closed {head : Head} (h : head.Sound) : head.closed = true := by
  cases head with
  | plain name m =>
    cases m with
    | none => exact h
    | some m => simpa [Head.closed, Head.modifier] using h.1
  | bracketed => exact h

/-- A head that is laid out in a text and closed is sound. -/
theorem Head.Laid.sound {head : Head} {start : Nat} {t after : Text}
    (h : head.Laid start t after) (hclosed : head.closed = true) : head.Sound := by
  cases head with
  | bracketed => exact hclosed
  | plain name m =>
    cases m with
    | none => exact hclosed
    | some m =>
      obtain ⟨rfl, core, u, rfl, hm⟩ := h
      have hmclosed : m.closed = true := by simpa [Head.closed, Head.modifier] using hclosed
      refine ⟨hmclosed, core, u, rfl, ?_⟩
      rcases hm with ⟨hwrapped, box, rfl, -, hbox⟩ | ⟨hplain, -, -, rfl⟩
      · rw [if_pos hmclosed] at hbox
        obtain ⟨close, hclose, rfl⟩ := hbox
        have hone : close.utf8Size = 1 := Brackets.utf8Size_of_isClosing hclose
        have hslash : '/'.utf8Size = 1 := by decide
        have hopen : '['.utf8Size = 1 := by decide
        simp only [ModifierText.width, Modifier.written, hwrapped, if_true, Text.bytes_cons,
          Text.bytes_append, Text.bytes_nil]
        omega
      · have hslash : '/'.utf8Size = 1 := by decide
        simp only [ModifierText.width, Modifier.written, hplain, Bool.false_eq_true, if_false,
          Text.bytes_cons]
        omega

mutual

/-- Every head in the variant is sound. -/
def Variant.Sound : Variant → Prop
  | .named _ head => head.Sound
  | .selector .. => True
  | .group _ members => MembersSound members

def ChainSound : List Variant → Prop
  | [] => True
  | v :: rest => v.Sound ∧ ChainSound rest

def MembersSound : List (List Variant) → Prop
  | [] => True
  | links :: rest => ChainSound links ∧ MembersSound rest

end

mutual

theorem Variant.Laid.sound {sep : Separator} {start : Nat} {t : Text} :
    ∀ {v : Variant}, v.Laid sep start t → v.Sound
  | .named .., ⟨_, hclosed, hhead⟩ => hhead.sound hclosed
  | .selector .., _ => trivial
  | .group .., ⟨_, _, _, _, _, hmembers⟩ => MembersLaid.sound hmembers

theorem ChainLaid.sound {sep : Separator} {start : Nat} {t : Text} :
    ∀ {links : List Variant}, ChainLaid sep start t links → ChainSound links
  | [], _ => trivial
  | _ :: _, ⟨_, _, _, _, hv, _, hrest⟩ => ⟨Variant.Laid.sound hv, ChainLaid.sound hrest⟩

theorem MembersLaid.sound {sep : Separator} {start : Nat} {t : Text} :
    ∀ {members : List (List Variant)}, MembersLaid sep start t members → MembersSound members
  | [], _ => trivial
  | _ :: _, ⟨_, _, _, _, _, _, hlinks, hrest⟩ => ⟨ChainLaid.sound hlinks, MembersLaid.sound hrest⟩

end

/-! ## The single variants in a variant -/

mutual

/-- The variants that a variant is made of: itself, or what is in the chains of a group. -/
def Variant.singles : Variant → List Variant
  | .named source head => [.named source head]
  | .selector source inner => [.selector source inner]
  | .group _ members => membersSingles members

/-- The variants that the links of a chain are made of. -/
def chainSingles : List Variant → List Variant
  | [] => []
  | v :: rest => v.singles ++ chainSingles rest

/-- The variants that the chains of a group are made of. -/
def membersSingles : List (List Variant) → List Variant
  | [] => []
  | links :: rest => chainSingles links ++ membersSingles rest

end

end ClassList

/-! ## Registered variants that last -/

/-- The variant has a template, and what it does to a tree leaves something of it. -/
structure VariantSpec.Regular (spec : VariantSpec) : Prop where
  templates_ne_nil : ∀ templates, spec.rule = .fixed templates → templates ≠ []
  post_ne_nil : ∀ post ∈ spec.post, ∀ tree : StyleTree, tree ≠ [] → post tree ≠ []

/-- All registered variants are regular. -/
def Registry.Regular (registry : Registry) : Prop :=
  ∀ name, ∀ spec ∈ registry.variants.specs name, spec.Regular

/-- It is enough to look at the entries of the table. -/
theorem Registry.regular_of_entries {registry : Registry}
    (h : ∀ entry ∈ registry.variants, ∀ spec ∈ entry.2, spec.Regular) : registry.Regular := by
  intro name spec hspec
  obtain ⟨entry, hentry, hmem⟩ := SpecTable.exists_entry_of_mem_specs hspec
  exact h entry hentry spec hmem

/-- The registry has the spec, and the templates begin with those of the spec or are the one
that it makes of a value. -/
def Registry.Offers (registry : Registry) (spec : VariantSpec) (templates : List Text) : Prop :=
  ∃ name, spec ∈ registry.variants.specs name ∧
    ((∃ own more, spec.rule = .fixed own ∧ templates = own ++ more) ∨
      ∃ template, templates = [template])

/-- A spec of a regular registry makes a layer that lasts. -/
theorem Registry.Offers.lasting {registry : Registry} (hregular : registry.Regular)
    {spec : VariantSpec} {templates : List Text} (h : registry.Offers spec templates) :
    (Environment.wrapperOf spec templates).Lasting := by
  obtain ⟨name, hspec, htemplates⟩ := h
  refine Wrapper.lasting_single ⟨?_, ?_⟩
  · show templates.map Wrapping.levels ≠ []
    rcases htemplates with ⟨own, more, hrule, rfl⟩ | ⟨template, rfl⟩
    · have hown := (hregular name spec hspec).templates_ne_nil own hrule
      simp [hown]
    · simp
  · intro post hpost
    exact (hregular name spec hspec).post_ne_nil post (Option.mem_toList.mp hpost)

namespace Environment

variable {env : Environment}

/-! ## Candidates -/

theorem staticTemplates?_eq_some {specs : List VariantSpec} {spec : VariantSpec}
    {templates : List Text} (h : staticTemplates? specs = some (spec, templates)) :
    spec ∈ specs ∧ ∃ own more, spec.rule = .fixed own ∧ templates = own ++ more := by
  simp only [staticTemplates?] at h
  split at h
  · exact absurd h (by simp)
  · rename_i first own rest hfound
    obtain ⟨rfl, rfl⟩ : first = spec ∧ own ++ rest.flatMap Prod.snd = templates := by
      simpa using h
    obtain ⟨s, hs, hrule⟩ := List.mem_filterMap.mp (hfound ▸ List.mem_cons_self)
    split at hrule
    · rename_i own' hfixed
      obtain ⟨rfl, rfl⟩ : s = first ∧ own' = own := by simpa using hrule
      exact ⟨hs, own', _, hfixed, rfl⟩
    · exact absurd hrule (by simp)

/-- What the lookup variants among specs offer. -/
theorem offers_of_mem_lookups {name : Text} {render : LookupVariant → Option Text}
    {spec : VariantSpec} {templates : List Text}
    (h : (spec, templates) ∈ (env.registry.variants.specs name).filterMap fun spec =>
      match spec.rule with
      | .fixed _ => none
      | .lookup v => (render v).map fun template => (spec, [template])) :
    env.registry.Offers spec templates := by
  obtain ⟨s, hs, hrule⟩ := List.mem_filterMap.mp h
  split at hrule
  · exact absurd hrule (by simp)
  · obtain ⟨template, -, hpair⟩ := Option.map_eq_some_iff.mp hrule
    obtain ⟨rfl, rfl⟩ : s = spec ∧ [template] = templates := by simpa using hpair
    exact ⟨name, hs, Or.inr ⟨template, rfl⟩⟩

theorem offers_of_mem_variantCandidates {r : Reading} {spec : VariantSpec}
    {templates : List Text}
    (h : (spec, templates) ∈ variantCandidates (env.registry.variants.specs r.key) r) :
    env.registry.Offers spec templates := by
  rcases List.mem_append.mp h with hstatic | hlookup
  · have hsome := Option.mem_toList.mp hstatic
    split at hsome
    · exact absurd hsome (by simp)
    · obtain ⟨hspec, hown⟩ := staticTemplates?_eq_some hsome
      exact ⟨r.key, hspec, Or.inl hown⟩
  · exact offers_of_mem_lookups hlookup

/-! ## Decisions -/

/-- One candidate is chosen; several are ambiguous. -/
theorem chooseVariant?_cases {key : Text} {candidates : List (VariantSpec × List Text)}
    {decision : Except Failure ResolvedVariant}
    (h : chooseVariant? key candidates = some decision) :
    decision = .error .ambiguous ∨ ∃ spec templates, (spec, templates) ∈ candidates ∧
      decision = .ok ⟨key, some spec, wrapperOf spec templates⟩ := by
  unfold chooseVariant? at h
  split at h
  · exact absurd h (by simp)
  · rename_i spec templates
    exact Or.inr ⟨spec, templates, List.mem_cons_self, (Option.some.inj h).symm⟩
  · exact Or.inl (Option.some.inj h).symm

/-- What resolving a variant can come to. -/
inductive Resolution (env : Environment) : Except Failure ResolvedVariant → Prop where
  | notFound : Resolution env (.error .notFound)
  | ambiguous : Resolution env (.error .ambiguous)
  | registered {key : Text} {spec : VariantSpec} {templates : List Text} :
    env.registry.Offers spec templates →
    Resolution env (.ok ⟨key, some spec, wrapperOf spec templates⟩)
  | selector {selector : Text} :
    Resolution env (.ok ⟨[], none, .single (.ofTemplates [selector] none)⟩)

theorem resolution_of_chooseVariant? {key : Text} {candidates : List (VariantSpec × List Text)}
    {decision : Except Failure ResolvedVariant}
    (h : chooseVariant? key candidates = some decision)
    (hoffers : ∀ spec templates, (spec, templates) ∈ candidates →
      env.registry.Offers spec templates) : env.Resolution decision := by
  rcases chooseVariant?_cases h with rfl | ⟨spec, templates, hmem, rfl⟩
  · exact .ambiguous
  · exact .registered (hoffers spec templates hmem)

theorem resolution_decideVariant? : ∀ readings : List Reading,
    env.Resolution (env.decideVariant? readings)
  | [] => .notFound
  | r :: rest => by
    rw [decideVariant?]
    split
    · rename_i decision hdecision
      exact resolution_of_chooseVariant? hdecision fun _ _ => offers_of_mem_variantCandidates
    · exact resolution_decideVariant? rest

theorem resolution_variant {name : Text} {modifier : Option ModifierText}
    (hcut : Reading.stripModifier? name modifier ≠ none) :
    env.Resolution (env.variant name modifier) := by
  unfold variant
  split
  · rename_i hnone
    exact absurd (Option.map_eq_none_iff.mp hnone) hcut
  · exact resolution_decideVariant? _

theorem resolution_bracketedVariant (name value : Text) (modifier : Option ModifierText) :
    env.Resolution (env.bracketedVariant name value modifier) := by
  simp only [bracketedVariant]
  split
  · rename_i decision hdecision
    exact resolution_of_chooseVariant? hdecision fun _ _ => offers_of_mem_lookups
  · exact .notFound

theorem resolution_selectorVariant (raw : Text) : env.Resolution (selectorVariant raw) := by
  unfold selectorVariant
  split
  · exact .selector
  · exact .notFound

/-- A variant that was read is never torn. -/
theorem resolution_singleVariant : ∀ {v : ClassList.Variant}, v.Sound →
    env.Resolution (env.singleVariant v)
  | .named _ (.plain name none), _ => by
    have hcut : Reading.stripModifier? name.text none ≠ none := by simp [Reading.stripModifier?]
    exact resolution_variant hcut
  | .named _ (.plain name (some m)), ⟨_, core, u, hname, hwidth⟩ => by
    refine resolution_variant ?_
    rw [hname]
    show Reading.stripModifier? (core ++ u) (some m.written) ≠ none
    rw [Reading.stripModifier?_append core u hwidth]
    simp
  | .named _ (.bracketed ..), _ => resolution_bracketedVariant _ _ _
  | .selector .., _ => resolution_selectorVariant _
  | .group .., _ => .notFound

/-- What a name resolves to, if it does. -/
theorem resolution_of_singleVariant : ∀ {v : ClassList.Variant} {found : ResolvedVariant},
    env.singleVariant v = .ok found → env.Resolution (.ok found)
  | .named _ (.plain name m), found, h => by
    by_cases hcut : Reading.stripModifier? name.text (m.map ClassList.Modifier.written) = none
    · have htorn : env.variant name.text (m.map ClassList.Modifier.written) = .error .torn := by
        unfold variant
        rw [Reading.all?, hcut]
        rfl
      exact absurd (htorn.symm.trans h) (by simp)
    · exact h ▸ resolution_variant hcut
  | .named _ (.bracketed ..), _, h => h ▸ resolution_bracketedVariant _ _ _
  | .selector .., _, h => h ▸ resolution_selectorVariant _
  | .group .., _, h => absurd h (by simp [singleVariant])

theorem Resolution.lasting (hregular : env.registry.Regular) {found : ResolvedVariant}
    (h : env.Resolution (.ok found)) : found.wrapper.Lasting := by
  cases h with
  | registered hoffers => exact hoffers.lasting hregular
  | selector =>
    refine Wrapper.lasting_single ⟨by simp [Wrapping.ofTemplates], ?_⟩
    intro post hpost
    exact absurd hpost (by simp [Wrapping.ofTemplates])

/-! ## Reports on variants -/

/-- The report holds a value and nothing else, or no value and a note. -/
structure Decisive {α : Type} (r : Report (Option α)) : Prop where
  torn : r.torn = false
  noted : r.diagnostics = [] ↔ r.value.isSome = true

theorem Decisive.eq_pure {α : Type} {r : Report (Option α)} (h : Decisive r) {a : α}
    (ha : r.value = some a) : r = pure (some a) := by
  ext : 1
  · exact ha
  · exact h.noted.mpr (by rw [ha]; rfl)
  · exact h.torn

theorem decisive_resolved? {v : ClassList.Variant} (hv : v.Sound) (hclosed : v.closed = true) :
    Decisive (env.resolved? v) := by
  have hresolution : env.Resolution (env.singleVariant v) := resolution_singleVariant hv
  unfold resolved?
  rw [hclosed, Bool.not_true, Report.noteIf_false, pure_bind]
  cases hresolution : env.singleVariant v with
  | ok found => exact ⟨rfl, by simp⟩
  | error failure =>
    cases failure with
    | notFound => exact ⟨rfl, by simp [Failure.report]⟩
    | ambiguous => exact ⟨rfl, by simp [Failure.report]⟩
    | torn =>
      rename_i h
      rw [hresolution] at h
      cases h

mutual

/-- A variant resolves without a note, or does not and something is noted. -/
theorem decisive_wrapper? : ∀ {v : ClassList.Variant}, v.Sound → Decisive (env.wrapper? v)
  | .named .., h => decisive_resolved? h (ClassList.Head.Sound.closed h)
  | .selector .., h => decisive_resolved? h rfl
  | .group _ members, h => by
    obtain ⟨htorn, hnoted⟩ : Decisive (env.membersWrappers? members) := decisive_membersWrappers? h
    rw [wrapper?]
    exact ⟨by simp [htorn], by simp [hnoted]⟩

theorem decisive_membersWrappers? : ∀ {members : List (List ClassList.Variant)},
    ClassList.MembersSound members → Decisive (env.membersWrappers? members)
  | [], _ => ⟨rfl, by simp [membersWrappers?]⟩
  | links :: rest, h => by
    obtain ⟨htorn, hnoted⟩ : Decisive (env.chainWrapper? links) := decisive_chainWrapper? h.1
    obtain ⟨htorn', hnoted'⟩ : Decisive (env.membersWrappers? rest) :=
      decisive_membersWrappers? h.2
    rw [membersWrappers?]
    refine ⟨by simp [htorn, htorn'], ?_⟩
    simp only [Report.diagnostics_bind, Report.diagnostics_pure, Report.value_bind,
      Report.value_pure, List.append_nil, List.append_eq_nil_iff, hnoted, hnoted']
    cases (env.chainWrapper? links).value <;> cases (env.membersWrappers? rest).value <;> simp

theorem decisive_chainWrapper? : ∀ {links : List ClassList.Variant},
    ClassList.ChainSound links → Decisive (env.chainWrapper? links)
  | [], _ => ⟨rfl, by simp [chainWrapper?]⟩
  | v :: rest, h => by
    obtain ⟨htorn, hnoted⟩ : Decisive (env.wrapper? v) := decisive_wrapper? h.1
    obtain ⟨htorn', hnoted'⟩ : Decisive (env.chainWrapper? rest) := decisive_chainWrapper? h.2
    rw [chainWrapper?]
    refine ⟨by simp [htorn, htorn'], ?_⟩
    simp only [Report.diagnostics_bind, Report.diagnostics_pure, Report.value_bind,
      Report.value_pure, List.append_nil, List.append_eq_nil_iff, hnoted, hnoted']
    cases (env.wrapper? v).value <;> cases (env.chainWrapper? rest).value <;> simp

end

/-! ## Wrappers of variants that resolve -/

/-- The property is kept when wrappers are put around each other or joined in a group. -/
structure Composable (P : Wrapper → Prop) : Prop where
  identity : P .identity
  around : ∀ {u w}, P u → P w → P (u.around w)
  group : ∀ {members}, (∀ m ∈ members, P m) → P (Wrapper.group members)

/-- The wrapper of every variant among these that resolves has the property. -/
def ForSingles (env : Environment) (P : Wrapper → Prop) (vs : List ClassList.Variant) : Prop :=
  ∀ v ∈ vs, ∀ found, env.singleVariant v = .ok found → P found.wrapper

theorem ForSingles.of_resolved? {P : Wrapper → Prop} {v : ClassList.Variant}
    (hsingle : env.ForSingles P [v]) {w : Wrapper} (hw : (env.resolved? v).value = some w) :
    P w := by
  unfold resolved? at hw
  rw [Report.value_bind] at hw
  split at hw
  · rename_i found hfound
    obtain rfl := Option.some.inj hw
    exact hsingle v List.mem_cons_self found hfound
  · exact absurd hw (by simp)

mutual

/-- What is composable and holds of the single variants in a variant holds of its wrapper. -/
theorem Composable.of_wrapper? {P : Wrapper → Prop} (hP : Composable P) :
    ∀ {v : ClassList.Variant} {w : Wrapper}, env.ForSingles P v.singles →
      (env.wrapper? v).value = some w → P w
  | .named .., _, hsingle, hw => hsingle.of_resolved? hw
  | .selector .., _, hsingle, hw => hsingle.of_resolved? hw
  | .group _ members, w, hsingle, hw => by
    obtain ⟨wrappers, hwrappers, rfl⟩ := Option.map_eq_some_iff.mp hw
    exact hP.group (Composable.of_membersWrappers? hP hsingle hwrappers)

theorem Composable.of_membersWrappers? {P : Wrapper → Prop} (hP : Composable P) :
    ∀ {members : List (List ClassList.Variant)} {wrappers : List Wrapper},
      env.ForSingles P (ClassList.membersSingles members) →
        (env.membersWrappers? members).value = some wrappers → ∀ w ∈ wrappers, P w
  | [], _, _, hw => by
    obtain rfl := Option.some.inj hw
    exact fun w hw => absurd hw List.not_mem_nil
  | links :: rest, _, hsingle, hw => by
    obtain ⟨hlinks, hrest⟩ := List.forall_mem_append.mp hsingle
    obtain ⟨member, hmember, hothers⟩ := Option.bind_eq_some_iff.mp hw
    obtain ⟨others, hothers', rfl⟩ := Option.map_eq_some_iff.mp hothers
    intro w hw
    rcases List.mem_cons.mp hw with rfl | hw
    · exact Composable.of_chainWrapper? hP hlinks hmember
    · exact Composable.of_membersWrappers? hP hrest hothers' w hw

theorem Composable.of_chainWrapper? {P : Wrapper → Prop} (hP : Composable P) :
    ∀ {links : List ClassList.Variant} {w : Wrapper},
      env.ForSingles P (ClassList.chainSingles links) →
        (env.chainWrapper? links).value = some w → P w
  | [], _, _, hw => by
    obtain rfl := Option.some.inj hw
    exact hP.identity
  | v :: rest, _, hsingle, hw => by
    obtain ⟨hv, hrest⟩ := List.forall_mem_append.mp hsingle
    obtain ⟨outer, houter, hinner⟩ := Option.bind_eq_some_iff.mp hw
    obtain ⟨inner, hinner', rfl⟩ := Option.map_eq_some_iff.mp hinner
    exact hP.around (Composable.of_wrapper? hP hv houter)
      (Composable.of_chainWrapper? hP hrest hinner')

end

/-- The wrapper of a variant that resolves lasts, if the registry is regular. -/
theorem lasting_of_wrapper? (hregular : env.registry.Regular) {v : ClassList.Variant}
    {w : Wrapper} (hw : (env.wrapper? v).value = some w) : w.Lasting := by
  have hP : Composable Wrapper.Lasting := ⟨Wrapper.lasting_identity, .around, .group⟩
  exact hP.of_wrapper? (fun _ _ _ h => (resolution_of_singleVariant h).lasting hregular) hw

end Environment
end UtilityCss
