import UtilityCss.Proofs.Builtin.WellKeyed
import UtilityCss.Proofs.Context.Apply
import UtilityCss.Proofs.Evaluation.Blend
import UtilityCss.Proofs.Style.Spelling

/-!
# Classes that are registered several times

A class may be registered for several style trees, and all of them count.  They are merged as they
were written, in the order of registration, and the directives in the outcome are expanded.  If
the trees blend, nothing is different when each of them is expanded on its own: the class has what
it has in the contexts where only one of the trees is kept, merged in order.

The same goes for global styles, which are merged when they are registered and are expanded when
the context is built.
-/

namespace UtilityCss

open StyleTree (WellKeyed)
open ClassList

/-! ## Several answers -/

section

variable {ε α β γ : Type}

/-- What two functions answer alike element by element they answer alike for lists. -/
theorem mapM_congr_of_forall₂ {f : α → Except ε γ} {g : β → Except ε γ} {xs : List α}
    {ys : List β} (h : List.Forall₂ (fun x y => f x = g y) xs ys) : xs.mapM f = ys.mapM g := by
  induction h with
  | nil => rfl
  | cons hhead _ ih => rw [List.mapM_cons, List.mapM_cons, hhead, ih]

/-- What is done to every answer may be done once all are there. -/
theorem mapM_map_right {f : α → Except ε β} {g : β → γ} (xs : List α) :
    xs.mapM (fun x => (f x).map g) = (xs.mapM f).map (List.map g) := by
  induction xs with
  | nil => rfl
  | cons x rest ih =>
    rw [List.mapM_cons, List.mapM_cons, ih]
    cases f x with
    | error e => rfl
    | ok a => cases rest.mapM f <;> rfl

end

namespace Report

/-- Of several reports either one has a torn name, or all have a value. -/
theorem mapM_lenient {α β : Type} (r : α → Report β) (xs : List α) :
    xs.mapM (fun x => (r x).lenient) =
      if xs.any fun x => (r x).torn then .error .torn else .ok (xs.map fun x => (r x).value) := by
  induction xs with
  | nil => rfl
  | cons x rest ih =>
    rw [List.mapM_cons, ih, lenient, List.any_cons]
    cases (r x).torn with
    | true => rfl
    | false => cases rest.any fun x => (r x).torn <;> rfl

end Report

/-! ## One of several registrations -/

/-- The text is read as the one utility of that name, and no mark is on it. -/
def ClassList.IsClass (sep : Separator) (c : Text) : Prop :=
  ∃ source start m, (read sep c).exprs = [.utility source (.plain ⟨start, c⟩ m) false]

theorem ClassList.IsName.isClass {sep : Separator} {c : Text} (h : IsName sep c) :
    IsClass sep c := ⟨_, _, _, h.read_eq⟩

/-- The context with nothing but these specs registered for utilities of a name. -/
def Context.keeping (ctx : Context) (key : Text) (specs : List UtilitySpec) : Context :=
  { ctx with
    env := ctx.env.withRegistry
      { ctx.env.registry with utilities := Keyed.put key specs ctx.env.registry.utilities } }

theorem Context.specs_keeping (ctx : Context) (key : Text) (specs : List UtilitySpec) :
    (ctx.keeping key specs).env.registry.utilities.specs key = specs := by
  show (List.lookup key (Keyed.put key specs _)).getD [] = specs
  rw [Keyed.lookup_put_self]
  rfl

theorem Context.variant_keeping (ctx : Context) (key : Text) (specs : List UtilitySpec)
    (name : Text) : (ctx.keeping key specs).env.variant name none = ctx.env.variant name none := by
  have hvariants : (ctx.keeping key specs).env.registry.variants = ctx.env.registry.variants := rfl
  simp only [Environment.variant, hvariants]
  split
  · rfl
  · exact Environment.decideVariant?_congr fun r _ => rfl

namespace Environment

variable {env : Environment}

/-- Does the setting for importance make an unmarked utility with these flags important? -/
def enforces (env : Environment) (flags : Flags) : Bool :=
  match env.settings.important with
  | .selector _ => false
  | .all on => on && flags.respectsImportant

/-- The style of an unmarked utility, made important if the setting says so. -/
def finished (env : Environment) (flags : Flags) (tree : StyleTree) : StyleTree :=
  if env.enforces flags then StyleTree.important tree else tree

theorem wellKeyed_finished {tree : StyleTree} (h : WellKeyed tree) (flags : Flags) :
    WellKeyed (env.finished flags tree) := by
  unfold finished
  split
  · exact h.important
  · exact h

theorem emit_unmarked {tree : StyleTree} (h : WellKeyed tree) (flags : Flags) :
    env.emit .direct flags false tree {} = ⟨env.finished flags tree, []⟩ := by
  have hmerge : ∀ on : Bool, StyleTree.merge [] (if on then StyleTree.important tree else tree) =
      if on then StyleTree.important tree else tree := by
    intro on
    cases on with
    | false => exact StyleTree.nil_merge h.distinct
    | true => exact StyleTree.nil_merge h.important.distinct
  unfold emit finished enforces
  cases env.settings.important with
  | selector text => exact congrArg (Evaluated.mk · []) (hmerge false)
  | all on => exact congrArg (Evaluated.mk · []) (hmerge (on && flags.respectsImportant))

/-- Trees may be made important before or after they are merged. -/
theorem finished_foldl_merge (flags : Flags) (trees : List StyleTree) :
    env.finished flags (trees.foldl StyleTree.merge []) =
      (trees.map (env.finished flags)).foldl StyleTree.merge [] := by
  have honto : ∀ base, env.finished flags (trees.foldl StyleTree.merge base) =
      (trees.map (env.finished flags)).foldl StyleTree.merge (env.finished flags base) := by
    induction trees with
    | nil => exact fun _ => rfl
    | cons tree rest ih =>
      intro base
      rw [List.foldl_cons, ih, List.map_cons, List.foldl_cons]
      congr 1
      unfold finished
      split
      · exact StyleTree.important_merge base tree
      · rfl
  rw [honto]
  unfold finished
  split <;> rfl

/-- An unmarked utility that is found has the styles of its tree. -/
theorem lenient_expr_of_found {apply : Text → Report StyleTree} {source : Slice} {head : Head}
    {found : ResolvedUtility} (h : env.utilityOf head = .ok found) :
    (env.expr .direct apply false (.utility source head false) {}).lenient =
      (env.styleOf apply found).lenient.map fun tree =>
        env.emit .direct found.spec.flags false tree {} := by
  have hvalue : (env.expr .direct apply false (.utility source head false) {}).value =
      env.emit .direct found.spec.flags false (env.styleOf apply found).value {} := by
    rw [expr, h]
    rfl
  have htorn : (env.expr .direct apply false (.utility source head false) {}).torn =
      (env.styleOf apply found).torn := by
    rw [torn_expr_utility, tears]
    simp only [h]
  rw [Report.lenient, Report.lenient, htorn, hvalue]
  split <;> rfl

/-- One that is not found has no styles. -/
theorem lenient_expr_of_failure {apply : Text → Report StyleTree} {source : Slice} {head : Head}
    {failure : Failure} (h : env.utilityOf head = .error failure) :
    (env.expr .direct apply false (.utility source head false) {}).lenient =
      if failure = .torn then .error .torn else .ok {} := by
  rw [expr, h]
  cases failure <;> cases head.closed <;> rfl

end Environment

namespace Context

variable {ctx : Context} {c key : Text} {led : Bool} {source : Slice} {start : Nat}
  {m : Option Modifier}

/-! ## What a class comes to -/

/-- The styles of an unmarked utility with this style tree. -/
def styled (ctx : Context) (flags : Flags) (tree : StyleTree) : Except CompileError Evaluated :=
  (ctx.env.expand tree).lenient.map fun tree => ⟨ctx.env.finished flags tree, []⟩

/-- What a class comes to if style trees are registered for it: their styles, unless its name is
torn or could mean something that takes values. -/
def settled (ctx : Context) (key : Text) (led : Bool) (m : Option Modifier)
    (styles : Except CompileError Evaluated) : Except CompileError Evaluated :=
  if Reading.stripModifier? key (m.map Modifier.written) = none then .error .torn
  else if ctx.env.valued led key (ctx.env.registry.utilities.specs key) ≠ [] then .ok {}
  else styles

/-- Of a class for which style trees are registered these are merged before anything in them is
expanded. -/
theorem evaluate_of_statics (hlenient : ctx.strict = false)
    (hread : (read ctx.env.separator c).exprs = [.utility source (.plain ⟨start, c⟩ m) false])
    (hlead : ctx.env.stripLead c = (key, led)) {tree : StyleTree} {flags : Flags}
    {more : List (StyleTree × Flags)}
    (hstatics : UtilitySpec.statics (ctx.env.reached led (ctx.env.registry.utilities.specs key)) =
      (tree, flags) :: more)
    (hkeyed : WellKeyed
      (ctx.env.expand ((more.map Prod.fst).foldl StyleTree.merge tree)).value) :
    ctx.evaluate c = ctx.settled key led m
      (ctx.styled flags ((more.map Prod.fst).foldl StyleTree.merge tree)) := by
  have hanswer : ctx.evaluate c = (ctx.env.expr .direct
      (ctx.env.applyWithin Environment.applyLevels) false
      (.utility source (.plain ⟨start, c⟩ m) false) {}).lenient := by
    rw [evaluate, answer, hlenient, if_neg Bool.false_ne_true]
    show (ctx.env.exprs .direct _ false (read ctx.env.separator c).exprs {}).lenient = _
    rw [hread, Environment.exprs_singleton]
  rw [hanswer, settled]
  by_cases htorn : Reading.stripModifier? key (m.map Modifier.written) = none
  · have hall : Reading.all? ctx.env.registry.utilities UtilitySpec.isLookup
        (ctx.env.stripLead c).1 (m.map Modifier.written) = none := by
      rw [hlead, Reading.all?, htorn]
      rfl
    have hutility : ctx.env.utilityOf (.plain ⟨start, c⟩ m) = .error .torn :=
      Environment.utility_of_torn _ hall
    rw [Environment.lenient_expr_of_failure hutility, if_pos htorn]
    rfl
  · rw [if_neg htorn]
    have hname : ctx.env.stripLead (⟨start, c⟩ : Slice).text = (key, led) := hlead
    rcases Environment.utilityOf_of_statics hname htorn hstatics with
      ⟨hnone, plugin, hfound⟩ | ⟨hsome, hfound⟩
    · rw [Environment.lenient_expr_of_found hfound, if_neg (not_not_intro hnone), styled]
      show ((ctx.env.expand _).lenient.map fun tree => ctx.env.emit .direct flags false tree {}) = _
      rw [Report.lenient]
      split
      · rfl
      · exact congrArg Except.ok (Environment.emit_unmarked hkeyed flags)
    · rw [Environment.lenient_expr_of_failure hfound, if_pos hsome]
      rfl

/-! ## What each registration comes to -/

/-- The style trees that a class is registered for, with their flags. -/
def registered (ctx : Context) (c : Text) : List (StyleTree × Flags) :=
  let (key, led) := ctx.env.stripLead c
  UtilitySpec.statics (ctx.env.reached led (ctx.env.registry.utilities.specs key))

/-- The contexts that differ only in keeping one of these style trees, for each of them in
order. -/
def keepingEach (ctx : Context) (c : Text) : List Context :=
  let (key, led) := ctx.env.stripLead c
  (ctx.env.singled led (ctx.env.registry.utilities.specs key)).map (ctx.keeping key)

/-- The class is registered for the style trees, which may be expanded one by one.

Two of the conditions leave a defect aside.  Of the flags only those of the first registration
count, so trees that are not to be important become so with it, and the other way round; all have
to be alike here.  And a class list that a tree applies takes the place of the one that a tree
before it applies, which is lost; trees that blend lay a class list only over the same one. -/
structure Registrations (ctx : Context) (c : Text) (first : StyleTree × Flags)
    (rest : List (StyleTree × Flags)) : Prop where
  isClass : IsClass ctx.env.separator c
  registered : ctx.registered c = first :: rest
  /-- The setting for importance makes all of them important, or none. -/
  enforces : ∀ s ∈ rest, ctx.env.enforces s.2 = ctx.env.enforces first.2
  /-- Each may be laid over those before it. -/
  blend : Directive.AllBlend ctx.env (ctx.env.applyWithin Environment.applyLevels) first.1
    (rest.map Prod.fst)
  /-- What a tree applies has the same styles where only that tree is kept. -/
  applied : ∀ kept ∈ ctx.keepingEach c, ∀ s ∈ kept.registered c,
    ∀ t ∈ Directive.applications s.1,
      kept.env.applyWithin Environment.applyLevels t =
        ctx.env.applyWithin Environment.applyLevels t

theorem registered_eq (hlead : ctx.env.stripLead c = (key, led)) : ctx.registered c =
    UtilitySpec.statics (ctx.env.reached led (ctx.env.registry.utilities.specs key)) := by
  rw [registered, hlead]

theorem keepingEach_eq (hlead : ctx.env.stripLead c = (key, led)) : ctx.keepingEach c =
    (ctx.env.singled led (ctx.env.registry.utilities.specs key)).map (ctx.keeping key) := by
  rw [keepingEach, hlead]

theorem registered_keeping (hlead : ctx.env.stripLead c = (key, led)) (specs : List UtilitySpec) :
    (ctx.keeping key specs).registered c = UtilitySpec.statics (ctx.env.reached led specs) := by
  have hlead' : (ctx.keeping key specs).env.stripLead c = (key, led) := hlead
  rw [registered_eq hlead', specs_keeping]
  rfl

variable {first : StyleTree × Flags} {rest : List (StyleTree × Flags)}

theorem wellKeyed_of_mem_registered (hkeyed : ctx.env.registry.WellKeyed) :
    ∀ s ∈ ctx.registered c, WellKeyed s.1 := by
  intro s hs
  obtain ⟨spec, hspec, hfixed⟩ := List.mem_filterMap.mp hs
  have hspecKeyed := hkeyed.utility _ spec (List.mem_of_mem_filter hspec)
  unfold UtilitySpec.fixed? at hfixed
  unfold UtilitySpec.WellKeyed at hspecKeyed
  split at hfixed
  · rename_i tree flags hrule
    rw [hrule] at hspecKeyed
    rw [← Option.some.inj hfixed]
    exact hspecKeyed
  · exact absurd hfixed (Option.some_ne_none s).symm

theorem wellKeyed_expand (hkeyed : ctx.env.registry.WellKeyed) {tree : StyleTree}
    (htree : WellKeyed tree) : WellKeyed (ctx.env.expand tree).value :=
  Directive.wellKeyed_expanded hkeyed
    (fun t => Environment.wellKeyed_applyWithin hkeyed t Environment.applyLevels) htree

/-- A class may be registered for any style trees whose only directives are theme calls. -/
theorem Registrations.of_undirected (hkeyed : ctx.env.registry.WellKeyed)
    (hc : IsClass ctx.env.separator c) (hregistered : ctx.registered c = first :: rest)
    (henforces : ∀ s ∈ rest, ctx.env.enforces s.2 = ctx.env.enforces first.2)
    (hundirected : ∀ s ∈ first :: rest, Directive.Undirected s.1) :
    ctx.Registrations c first rest := by
  have htrees : ∀ s ∈ first :: rest, WellKeyed s.1 := by
    rw [← hregistered]
    exact wellKeyed_of_mem_registered hkeyed
  obtain ⟨hfirst, hrest⟩ := List.forall_mem_cons.mp htrees
  obtain ⟨hfirstUndirected, hrestUndirected⟩ := List.forall_mem_cons.mp hundirected
  refine ⟨hc, hregistered, henforces, ?_, ?_⟩
  · exact Directive.allBlend_of_undirected hkeyed
      (fun t => Environment.wellKeyed_applyWithin hkeyed t Environment.applyLevels) hfirst
      (List.forall_mem_map.mpr hrest) hfirstUndirected (List.forall_mem_map.mpr hrestUndirected)
  · intro kept hkept s hs t ht
    obtain ⟨key, led, hlead⟩ : ∃ key led, ctx.env.stripLead c = (key, led) := ⟨_, _, rfl⟩
    rw [keepingEach_eq hlead] at hkept
    obtain ⟨specs, hspecs, rfl⟩ := List.mem_map.mp hkept
    have hthere : s ∈ ctx.registered c := by
      rw [registered_keeping hlead] at hs
      rw [registered_eq hlead]
      obtain ⟨spec, hspec, hfixed⟩ := List.mem_filterMap.mp hs
      obtain ⟨hspec, hallows⟩ := List.mem_filter.mp hspec
      exact List.mem_filterMap.mpr
        ⟨spec, List.mem_filter.mpr ⟨Environment.mem_of_mem_singled hspecs spec hspec, hallows⟩,
          hfixed⟩
    rw [(hundirected s (hregistered ▸ hthere)).applications] at ht
    exact absurd ht List.not_mem_nil

/-- Where one of the style trees is kept the class has the style of that. -/
theorem evaluate_keepingEach (hlenient : ctx.strict = false)
    (hkeyed : ctx.env.registry.WellKeyed) (h : ctx.Registrations c first rest)
    (hread : (read ctx.env.separator c).exprs = [.utility source (.plain ⟨start, c⟩ m) false])
    (hlead : ctx.env.stripLead c = (key, led)) :
    List.Forall₂ (fun kept static => kept.evaluate c =
      ctx.settled key led m (ctx.styled first.2 static.1)) (ctx.keepingEach c) (ctx.registered c) := by
  have hsingled :=
    Environment.forall₂_singled ctx.env led (ctx.env.registry.utilities.specs key)
  rw [keepingEach_eq hlead, registered_eq hlead]
  refine List.forall₂_map_left_iff.mpr (List.forall₂_iff_zip.mpr
    ⟨hsingled.length_eq, fun {specs static} hmem => ?_⟩)
  obtain ⟨hkept, hstatic⟩ := List.of_mem_zip hmem
  obtain ⟨hsingle, hbesides⟩ := List.forall₂_zip hsingled hmem
  rw [← registered_eq hlead] at hstatic
  have hregistered : (ctx.keeping key specs).registered c = [static] :=
    (registered_keeping hlead specs).trans hsingle
  have hexpand : (ctx.keeping key specs).env.expand static.1 = ctx.env.expand static.1 := by
    have hmem : ctx.keeping key specs ∈ ctx.keepingEach c := by
      rw [keepingEach_eq hlead]
      exact List.mem_map_of_mem hkept
    have happlied := h.applied _ hmem static (by rw [hregistered]; exact List.mem_singleton_self _)
    have htheme : (ctx.keeping key specs).env.theme = ctx.env.theme := rfl
    exact Directive.expand_congr htheme (ctx.variant_keeping key specs) happlied
  have hvalued : (ctx.keeping key specs).env.valued led key specs =
      ctx.env.valued led key (ctx.env.registry.utilities.specs key) := by
    show ctx.env.valued led key specs = _
    rw [← Environment.valued_besides, hbesides, Environment.valued_besides]
  have henforces : ctx.env.enforces static.2 = ctx.env.enforces first.2 := by
    rw [h.registered] at hstatic
    rcases List.mem_cons.mp hstatic with rfl | hrest
    · rfl
    · exact h.enforces _ hrest
  have hlenient' : (ctx.keeping key specs).strict = false := hlenient
  have hstatics : UtilitySpec.statics ((ctx.keeping key specs).env.reached led
      ((ctx.keeping key specs).env.registry.utilities.specs key)) = [(static.1, static.2)] := by
    rw [specs_keeping]
    exact hsingle
  have hexpanded : WellKeyed ((ctx.keeping key specs).env.expand static.1).value := by
    rw [hexpand]
    exact wellKeyed_expand hkeyed (wellKeyed_of_mem_registered hkeyed static hstatic)
  rw [evaluate_of_statics hlenient' hread hlead hstatics hexpanded, settled, specs_keeping, hvalued,
    List.map_nil, List.foldl_nil, styled, hexpand]
  unfold settled styled Environment.finished
  rw [← henforces]
  rfl

/-- Trees that blend may be merged before or after they are expanded. -/
theorem lenient_expand_foldl_merge (hkeyed : ctx.env.registry.WellKeyed) {tree : StyleTree}
    {trees : List StyleTree} (htrees : ∀ t ∈ tree :: trees, WellKeyed t)
    (hblend : Directive.AllBlend ctx.env (ctx.env.applyWithin Environment.applyLevels) tree trees) :
    (ctx.env.expand (trees.foldl StyleTree.merge tree)).lenient =
      ((tree :: trees).mapM fun t => (ctx.env.expand t).lenient).map
        (List.foldl StyleTree.merge []) := by
  obtain ⟨htree, hrest⟩ := List.forall_mem_cons.mp htrees
  have happly : ∀ t, WellKeyed (ctx.env.applyWithin Environment.applyLevels t).value :=
    fun t => Environment.wellKeyed_applyWithin hkeyed t Environment.applyLevels
  have htorn : (ctx.env.expand (trees.foldl StyleTree.merge tree)).torn =
      (tree :: trees).any fun t => (ctx.env.expand t).torn :=
    Directive.torn_expand_foldl_merge hblend
  have hvalue : (ctx.env.expand (trees.foldl StyleTree.merge tree)).value =
      ((tree :: trees).map fun t => (ctx.env.expand t).value).foldl StyleTree.merge [] := by
    rw [List.map_cons, List.foldl_cons,
      StyleTree.nil_merge (wellKeyed_expand hkeyed htree).distinct]
    exact Directive.expanded_foldl_merge hkeyed happly htree hrest hblend
  rw [Report.mapM_lenient, Report.lenient, htorn, hvalue]
  split <;> rfl

/-- Either the name of the class or something that it applies is torn, or the class has the styles
of its style trees merged, and where one of these is kept it has the styles of that one. -/
theorem exists_styles (hlenient : ctx.strict = false) (hkeyed : ctx.env.registry.WellKeyed)
    (h : ctx.Registrations c first rest) :
    ((ctx.keepingEach c).mapM fun kept => kept.evaluate c) = .error .torn ∧
        ctx.evaluate c = .error .torn ∨
      ∃ trees : List StyleTree, (∀ t ∈ trees, WellKeyed t) ∧
        ((ctx.keepingEach c).mapM fun kept => kept.evaluate c) =
          .ok (trees.map fun t => ⟨t, []⟩) ∧
        ctx.evaluate c = .ok ⟨trees.foldl StyleTree.merge [], []⟩ := by
  obtain ⟨source, start, m, hread⟩ := h.isClass
  obtain ⟨key, led, hlead⟩ : ∃ key led, ctx.env.stripLead c = (key, led) := ⟨_, _, rfl⟩
  have hmany := mapM_congr_of_forall₂ (evaluate_keepingEach hlenient hkeyed h hread hlead)
  have htrees : ∀ t ∈ (first :: rest).map Prod.fst, WellKeyed t := by
    rw [← h.registered]
    exact List.forall_mem_map.mpr (wellKeyed_of_mem_registered hkeyed)
  have hmerged : WellKeyed ((rest.map Prod.fst).foldl StyleTree.merge first.1) :=
    StyleTree.wellKeyed_foldl_merge (htrees _ List.mem_cons_self)
      fun t ht => htrees t (List.mem_cons_of_mem _ ht)
  have hone := evaluate_of_statics hlenient hread hlead
    ((registered_eq hlead).symm.trans h.registered) (wellKeyed_expand hkeyed hmerged)
  rw [h.registered] at hmany
  rw [hmany, hone]
  unfold settled
  split
  · exact Or.inl ⟨rfl, rfl⟩
  split
  · refine Or.inr ⟨(first :: rest).map fun _ => [], ?_, ?_, ?_⟩
    · exact List.forall_mem_map.mpr fun _ _ => WellKeyed.nil
    · rw [List.map_map]
      exact List.mapM_pure
    · have hnil : ∀ xs : List (StyleTree × Flags),
          (xs.map fun _ => ([] : StyleTree)).foldl StyleTree.merge [] = [] := by
        intro xs
        induction xs with
        | nil => rfl
        | cons x xs ih => exact ih
      rw [hnil]
  · have hmap : ((first :: rest).mapM fun s => (ctx.env.expand s.1).lenient) =
        ((first :: rest).map Prod.fst).mapM fun t => (ctx.env.expand t).lenient := by
      rw [List.mapM_map]
      rfl
    unfold styled
    rw [lenient_expand_foldl_merge hkeyed htrees h.blend, mapM_map_right, hmap, List.map_cons,
      Report.mapM_lenient]
    split
    · exact Or.inl ⟨rfl, rfl⟩
    · refine Or.inr ⟨((first :: rest).map Prod.fst).map fun t =>
        ctx.env.finished first.2 (ctx.env.expand t).value, ?_, ?_, ?_⟩
      · exact List.forall_mem_map.mpr fun t ht =>
          Environment.wellKeyed_finished (wellKeyed_expand hkeyed (htrees t ht)) _
      · rw [List.map_map]
        exact congrArg Except.ok (List.map_map)
      · refine congrArg (fun tree => Except.ok (Evaluated.mk tree [])) ?_
        rw [Environment.finished_foldl_merge, List.map_map]
        rfl

theorem gathered_unmarked (ctx : Context) (tree : StyleTree) : ctx.gathered ⟨tree, []⟩ = tree := by
  unfold gathered
  split <;> rfl

/-- The style trees in camel case are those of the styles. -/
theorem mapM_css_keepingEach (ctx : Context) (c : Text) :
    ((ctx.keepingEach c).mapM fun kept : Context => kept.css c) =
      ((ctx.keepingEach c).mapM fun kept : Context => kept.evaluate c).map
        (List.map fun styles => StyleTree.camelize (ctx.gathered styles)) := by
  obtain ⟨key, led, hlead⟩ : ∃ key led, ctx.env.stripLead c = (key, led) := ⟨_, _, rfl⟩
  rw [← mapM_map_right, keepingEach_eq hlead, List.mapM_map, List.mapM_map]
  rfl

/-- In a lenient context, a class that is registered for style trees which may be expanded one by
one has what it has in the contexts that keep only one of them, merged in the order of
registration; and so has its style tree in camel case, if these spell no property in two ways.
Global styles that may be expanded one by one are what each of them alone expands to, merged in
the order of registration. -/
theorem css_registrations {config : ResolvedConfig} {ctx : Context}
    (hplugins : ∀ p ∈ config.plugins, p.WellKeyed)
    (hbases : ∀ p ∈ config.plugins, ∀ tree ∈ p.bases config.surroundings, WellKeyed tree)
    (hbuild : build config false = .ok ctx) :
    (∀ c first rest, ctx.Registrations c first rest →
      ctx.evaluate c = ((ctx.keepingEach c).mapM fun kept : Context => kept.evaluate c).map
        (List.foldl Evaluated.merge {}) ∧
      ((∀ styles, ((ctx.keepingEach c).mapM fun kept : Context => kept.evaluate c) = .ok styles →
          ∀ s ∈ styles, ∀ t ∈ styles, StyleTree.SpelledApart s.tree t.tree) →
        ctx.css c = ((ctx.keepingEach c).mapM fun kept : Context => kept.css c).map
          (List.foldl StyleTree.merge []))) ∧
    ∀ tree trees, (Builtin.enabled config.settings ++ config.plugins).flatMap
        (Plugin.bases config.surroundings) = tree :: trees →
      Directive.AllBlend ctx.env (ctx.env.applyWithin Environment.applyLevels) tree trees →
      .ok ctx.globalStyles = ((tree :: trees).mapM fun t => (ctx.env.expand t).lenient).map
        (List.foldl StyleTree.merge []) := by
  have hkeyed := wellKeyed_build hplugins hbuild
  obtain ⟨hregistry, hglobal, hlenient⟩ := of_build hbuild
  constructor
  · intro c first rest h
    rw [mapM_css_keepingEach]
    rcases exists_styles hlenient hkeyed h with ⟨hmany, hone⟩ | ⟨trees, htrees, hmany, hone⟩
    · rw [hmany, css, hone]
      exact ⟨rfl, fun _ => rfl⟩
    · have hfold : ∀ (trees : List StyleTree) (base : StyleTree),
          (trees.map fun t => (⟨t, []⟩ : Evaluated)).foldl Evaluated.merge ⟨base, []⟩ =
            ⟨trees.foldl StyleTree.merge base, []⟩ := by
        intro trees
        induction trees with
        | nil => exact fun _ => rfl
        | cons t rest ih => exact fun base => ih (StyleTree.merge base t)
      constructor
      · rw [hmany, hone]
        exact congrArg Except.ok (hfold trees []).symm
      · intro hapart
        have hcamel := StyleTree.camelize_foldl_merge htrees fun s hs t ht =>
          hapart _ hmany _ (List.mem_map_of_mem hs) _ (List.mem_map_of_mem ht)
        rw [hmany, css, hone]
        show Except.ok (StyleTree.camelize (ctx.gathered _)) =
          Except.ok (List.foldl _ _ (List.map _ (List.map _ trees)))
        rw [gathered_unmarked, hcamel, List.map_map]
        congr 3
        funext t
        exact (congrArg StyleTree.camelize (ctx.gathered_unmarked t)).symm
  · intro tree trees hall hblend
    have htrees : ∀ t ∈ tree :: trees, WellKeyed t := by
      rw [← hall]
      intro t ht
      obtain ⟨p, hp, ht⟩ := List.mem_flatMap.mp ht
      rcases List.mem_append.mp hp with hp | hp
      · exact Builtin.wellKeyed_of_mem_bases p (List.mem_of_mem_filter hp) t ht
      · exact hbases p hp t ht
    have hbase : ctx.env.registry.base = trees.foldl StyleTree.merge tree := by
      rw [Registry.base_build hregistry, hall, List.foldl_cons,
        StyleTree.nil_merge (htrees tree List.mem_cons_self).distinct]
    rw [← hglobal, hbase]
    exact lenient_expand_foldl_merge hkeyed htrees hblend

/-- A class and a selector in the global styles, for each of which two trees are registered that
put something into the same screen.  One has a declaration besides, and the other one applies a
class list. -/
theorem css_registrations_screen :
    let tree : StyleTree :=
      [(['a'], .scalar ['1']), ("@screen s".toList, .tree [(['b'], .scalar ['2'])])]
    let other : StyleTree := [("@apply".toList, .scalar "[e:3]".toList),
      ("@screen s".toList, .tree [(['d'], .scalar ['4'])])]
    let plugin : Plugin := ⟨['p'], fun _ => [.template ['s'] ["&s".toList],
      .classes [(".c".toList, .tree tree)] .standard,
      .classes [(".c".toList, .tree other)] .standard,
      .base [(['h'], .tree tree)], .base [(['h'], .tree other)]]⟩
    let config : ResolvedConfig := ⟨.null, [plugin], ⟨[':'], [], .all false, .media, []⟩⟩
    let styles : StyleTree := [(['a'], .scalar ['1']),
      ("&s".toList, .tree [(['b'], .scalar ['2']), (['d'], .scalar ['4'])]), (['e'], .scalar ['3'])]
    let registry : Registry :=
      ⟨[(['c'], [⟨['p'], .fixed tree .standard⟩, ⟨['p'], .fixed other .standard⟩])],
        [(['s'], [⟨['p'], .fixed ["&s".toList], none⟩])],
        StyleTree.merge [(['h'], .tree tree)] [(['h'], .tree other)]⟩
    let ctx : Context :=
      ⟨⟨⟨.null⟩, config.settings, .colon, registry⟩, [(['h'], .tree styles)], false⟩
    build config false = .ok ctx ∧ ctx.Registrations ['c'] (tree, .standard) [(other, .standard)] ∧
      (ctx.css ['c'] = .ok styles ∧
        ((ctx.keepingEach ['c']).mapM fun kept : Context => kept.css ['c']).map
          (List.foldl StyleTree.merge []) = .ok styles) ∧
      ([[(['h'], .tree tree)], [(['h'], .tree other)]].mapM fun t =>
        (ctx.env.expand t).lenient).map (List.foldl StyleTree.merge []) = .ok ctx.globalStyles := by
  intro tree other plugin config styles registry ctx
  have htree : WellKeyed tree :=
    ⟨by decide, trivial, by decide, ⟨by decide, trivial, trivial⟩, trivial⟩
  have hother : WellKeyed other :=
    ⟨by decide, trivial, by decide, ⟨by decide, trivial, trivial⟩, trivial⟩
  have hbuild : build config false = .ok ctx :=
    build_of_registry rfl rfl (by decide +kernel)
  have hplugins : ∀ p ∈ config.plugins, p.WellKeyed := by
    refine List.forall_mem_singleton.mpr fun around => ?_
    simp only [plugin, List.forall_mem_cons]
    exact ⟨Builtin.wellKeyed_template _ _, htree.nest _, hother.nest _, trivial, trivial,
      fun _ h => absurd h List.not_mem_nil⟩
  have hbases : ∀ p ∈ config.plugins, ∀ t ∈ p.bases config.surroundings, WellKeyed t := by
    have hall : plugin.bases config.surroundings =
        [[(['h'], .tree tree)], [(['h'], .tree other)]] := rfl
    refine List.forall_mem_singleton.mpr ?_
    rw [hall]
    simp only [List.forall_mem_cons]
    exact ⟨htree.nest _, hother.nest _, fun _ h => absurd h List.not_mem_nil⟩
  have hblend : Directive.Blends ctx.env (ctx.env.applyWithin Environment.applyLevels) other
      tree := by
    have hadditions : Directive.additions ctx.env (ctx.env.applyWithin Environment.applyLevels)
        other = [[(['e'], .scalar ['3'])], [("&s".toList, .tree [(['d'], .scalar ['4'])])]] := by
      decide +kernel
    have hagree : StyleTree.Agree [(['e'], .scalar ['3'])]
        [("&s".toList, .tree [(['d'], .scalar ['4'])])] := by
      refine StyleTree.agree_of_values fun k v w hv hw => ?_
      have hk := (Prod.mk.inj (List.mem_singleton.mp (Keyed.mem_of_lookup hv))).1
      have hk' := (Prod.mk.inj (List.mem_singleton.mp (Keyed.mem_of_lookup hw))).1
      exact absurd (hk.symm.trans hk') (by decide)
    refine ⟨by rw [hadditions]; exact List.pairwise_pair.mpr hagree, ?_⟩
    rw [Directive.EntriesBlend, Directive.EntriesBlend, Directive.EntriesBlend]
    refine ⟨fun v h => absurd h (Option.some_ne_none v).symm, fun previous h => ?_, trivial⟩
    obtain rfl : previous = .tree [(['b'], .scalar ['2'])] := (Option.some.inj h).symm
    rw [Directive.ValuesBlend]
    unfold Directive.Clear
    refine ⟨fun _ => ⟨List.pairwise_singleton _ _, ?_, fun name hname => ?_⟩, by decide +kernel,
      Or.inr (by decide +kernel)⟩
    · rw [Directive.EntriesBlend, Directive.EntriesBlend]
      exact ⟨fun v h => absurd h (Option.some_ne_none v).symm, trivial⟩
    · obtain rfl : name = ['s'] := (Option.some.inj hname).symm
      exact Directive.splits_of_level rfl rfl (by decide +kernel)
  have happlied : ∀ kept ∈ ctx.keepingEach ['c'], ∀ s ∈ kept.registered ['c'],
      ∀ t ∈ Directive.applications s.1, kept.env.applyWithin Environment.applyLevels t =
        ctx.env.applyWithin Environment.applyLevels t := by
    show ∀ kept ∈ [_, _], _
    simp only [List.forall_mem_cons]
    refine ⟨?_, ?_, fun _ h => absurd h List.not_mem_nil⟩
    · exact List.forall_mem_singleton.mpr fun t ht => absurd ht List.not_mem_nil
    · refine List.forall_mem_singleton.mpr (List.forall_mem_singleton.mpr ?_)
      ext : 1 <;> decide +kernel
  have hregistrations : ctx.Registrations ['c'] (tree, .standard) [(other, .standard)] :=
    ⟨IsName.isClass (by decide), rfl, fun _ _ => rfl, ⟨hblend, trivial⟩, happlied⟩
  obtain ⟨hclasses, hglobal⟩ := css_registrations hplugins hbases hbuild
  obtain ⟨-, hcss⟩ := hclasses _ _ _ hregistrations
  have hvalue : ctx.css ['c'] = .ok styles := by decide +kernel
  refine ⟨hbuild, hregistrations, ⟨hvalue, ?_⟩, (hglobal _ _ rfl ⟨hblend.nest rfl, trivial⟩).symm⟩
  rw [← hcss, hvalue]
  intro found hfound
  let kept : List Evaluated :=
    [⟨[(['a'], .scalar ['1']), ("&s".toList, .tree [(['b'], .scalar ['2'])])], []⟩,
      ⟨[(['e'], .scalar ['3']), ("&s".toList, .tree [(['d'], .scalar ['4'])])], []⟩]
  have hkept : ((ctx.keepingEach ['c']).mapM fun kept : Context => kept.evaluate ['c']) =
      .ok kept := by decide +kernel
  have hcamel : ∀ s ∈ kept, StyleTree.InCamelCase s.tree := by
    simp only [kept, List.forall_mem_cons]
    exact ⟨⟨by decide, trivial, by decide, ⟨by decide, trivial, trivial⟩, trivial⟩,
      ⟨by decide, trivial, by decide, ⟨by decide, trivial, trivial⟩, trivial⟩,
      fun _ h => absurd h List.not_mem_nil⟩
  obtain rfl := Except.ok.inj (hkept.symm.trans hfound)
  exact fun s hs t ht => (hcamel s hs).spelledApart (hcamel t ht)

/-- A declaration is merged to where its property stands, in front of a class list that is applied
behind it.  A tree that applies the class itself applies the other tree too.  In camel case two
properties may become one, of which the last counts.  And the variant of a screen may change what
it wraps: here it puts a declaration in front, which is there already if both trees are wrapped at
once. -/
theorem css_registrations_in_place :
    let tree : StyleTree := [(['a'], .scalar ['1']), ("@apply".toList, .scalar "[a:2]".toList)]
    let other : StyleTree := [(['a'], .scalar ['3'])]
    let itself : StyleTree := [("&:x".toList, .tree [("@apply".toList, .scalar ['d'])])]
    let twice : StyleTree := [("a-b".toList, .scalar ['1']), ("aB".toList, .scalar ['2'])]
    let hyphened : StyleTree := [("a-b".toList, .scalar ['3'])]
    let screen (property : Char) : StyleTree :=
      [("@screen s".toList, .tree [([property], .scalar ['1'])])]
    let pair (name : Text) (s t : StyleTree) : List Registration :=
      [.classes [('.' :: name, .tree s)] .standard, .classes [('.' :: name, .tree t)] .standard]
    let front (tree : StyleTree) : StyleTree := StyleTree.merge [(['a'], .scalar ['0'])] tree
    let plugin : Plugin := ⟨['p'], fun _ => pair ['c'] tree other ++ pair ['d'] itself other ++
      pair ['e'] twice hyphened ++ pair ['f'] (screen 'a') (screen 'b') ++
      [.variant ['s'] (.fixed ["&s".toList]) (some front),
        .base [(['h'], .tree tree)], .base [(['h'], .tree other)]]⟩
    let config : ResolvedConfig := ⟨.null, [plugin], ⟨[':'], [], .all false, .media, []⟩⟩
    let specs (s t : StyleTree) : List UtilitySpec :=
      [⟨['p'], .fixed s .standard⟩, ⟨['p'], .fixed t .standard⟩]
    let registry : Registry :=
      ⟨[(['c'], specs tree other), (['d'], specs itself other), (['e'], specs twice hyphened),
          (['f'], specs (screen 'a') (screen 'b'))],
        [(['s'], [⟨['p'], .fixed ["&s".toList], some front⟩])],
        StyleTree.merge [(['h'], .tree tree)] [(['h'], .tree other)]⟩
    let ctx : Context := ⟨⟨⟨.null⟩, config.settings, .colon, registry⟩,
      [(['h'], .tree [(['a'], .scalar ['2'])])], false⟩
    let each (c : Text) : Except CompileError StyleTree :=
      ((ctx.keepingEach c).mapM fun kept : Context => kept.css c).map
        (List.foldl StyleTree.merge [])
    build config false = .ok ctx ∧
      (ctx.css ['c'] = .ok [(['a'], .scalar ['2'])] ∧ each ['c'] = .ok [(['a'], .scalar ['3'])]) ∧
      ctx.css ['d'] ≠ each ['d'] ∧
      (ctx.css ['e'] = .ok [("aB".toList, .scalar ['2'])] ∧
        each ['e'] = .ok [("aB".toList, .scalar ['3'])]) ∧
      (ctx.css ['f'] =
          .ok [("&s".toList, .tree [(['a'], .scalar ['1']), (['b'], .scalar ['1'])])] ∧
        each ['f'] =
          .ok [("&s".toList, .tree [(['a'], .scalar ['0']), (['b'], .scalar ['1'])])]) ∧
      ([[(['h'], .tree tree)], [(['h'], .tree other)]].mapM fun t =>
        (ctx.env.expand t).lenient).map (List.foldl StyleTree.merge []) =
          .ok [(['h'], .tree [(['a'], .scalar ['3'])])] := by
  exact ⟨build_of_registry rfl rfl (by decide +kernel),
    ⟨by decide +kernel, by decide +kernel⟩, by decide +kernel, ⟨by decide +kernel, by decide +kernel⟩, ⟨by decide +kernel, by decide +kernel⟩,
    by decide +kernel⟩

end Context
end UtilityCss
