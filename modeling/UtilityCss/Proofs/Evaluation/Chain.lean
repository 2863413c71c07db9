import UtilityCss.Proofs.ClassList.Chain
import UtilityCss.Proofs.Evaluation.Shift
import UtilityCss.Proofs.Evaluation.Variant

/-!
# Chains of variants, composed and applied

There are two ways through a chain of variants.  `wrap` composes the wrappers of its
variants and leaves applying them to whoever asks.  `evaluate`, given the chain in front
of an expression, evaluates the expression and applies the wrappers one by one on the
way out, each to a tree of its own that is then merged into an empty one.  Where all
variants resolve the two agree, because a merge into an empty tree changes nothing and
no wrapper leaves nothing of something.
-/

namespace UtilityCss

/-! ## Styles with distinct keys -/

namespace Evaluated

/-- In both trees the keys are distinct. -/
structure Distinct (x : Evaluated) : Prop where
  tree : Keyed.Distinct x.tree
  important : Keyed.Distinct x.important

variable {x : Evaluated}

theorem distinct_empty : ({} : Evaluated).Distinct := ⟨Keyed.distinct_nil, Keyed.distinct_nil⟩

theorem Distinct.merge (h : x.Distinct) (y : Evaluated) : (x.merge y).Distinct :=
  ⟨StyleTree.distinct_merge _ h.tree, StyleTree.distinct_merge _ h.important⟩

theorem Distinct.wrapped (h : x.Distinct) (w : Wrapper) : (x.wrapped w).Distinct :=
  ⟨w.distinct_apply h.tree, w.distinct_apply h.important⟩

/-- Merging styles into none changes nothing. -/
theorem Distinct.empty_merge (h : x.Distinct) : ({} : Evaluated).merge x = x := by
  show (⟨StyleTree.merge [] x.tree, StyleTree.merge [] x.important⟩ : Evaluated) = x
  rw [StyleTree.nil_merge h.tree, StyleTree.nil_merge h.important]

theorem wrapped_identity (x : Evaluated) : x.wrapped .identity = x := by
  simp [Evaluated.wrapped]

theorem wrapped_around (x : Evaluated) (outer : Wrapper) {inner : Wrapper}
    (hinner : inner.Lasting) :
    x.wrapped (outer.around inner) = (x.wrapped inner).wrapped outer := by
  simp only [Evaluated.wrapped, Wrapper.apply_around outer hinner]

end Evaluated

namespace Environment

open ClassList

variable {env : Environment} {mode : Mode} {apply : Text → Report StyleTree}

/-- A style is merged into one of the two trees, into the ordinary one perhaps with its
declarations marked. -/
theorem emit_cases (env : Environment) (mode : Mode) (flags : Flags) (marked : Bool)
    (tree : StyleTree) :
    (∀ out, env.emit mode flags marked tree out =
        { out with important := StyleTree.merge out.important tree }) ∨
      ∃ added, (added = tree ∨ added = StyleTree.important tree) ∧
        ∀ out, env.emit mode flags marked tree out =
          { out with tree := StyleTree.merge out.tree added } := by
  unfold emit
  cases env.settings.important with
  | selector _ =>
    cases marked with
    | true =>
      cases mode with
      | direct => exact Or.inl fun _ => rfl
      | applied => exact Or.inr ⟨_, Or.inr rfl, fun _ => rfl⟩
    | false => exact Or.inr ⟨_, Or.inl rfl, fun _ => rfl⟩
  | all on =>
    refine Or.inr ⟨_, ?_, fun _ => rfl⟩
    split
    · exact Or.inr rfl
    · exact Or.inl rfl

theorem distinct_emit {flags : Flags} {marked : Bool} {tree : StyleTree} {out : Evaluated}
    (h : out.Distinct) : (env.emit mode flags marked tree out).Distinct := by
  rcases env.emit_cases mode flags marked tree with himportant | ⟨added, -, htree⟩
  · rw [himportant]
    exact ⟨h.tree, StyleTree.distinct_merge _ h.important⟩
  · rw [htree]
    exact ⟨StyleTree.distinct_merge _ h.tree, h.important⟩

mutual

/-- Evaluation adds styles by merging, so their keys stay distinct. -/
theorem distinct_expr : ∀ (e : ClassList.Expr) (important : Bool) (out : Evaluated), out.Distinct →
    (env.expr mode apply important e out).value.Distinct
  | .group source members marked closed, important, out, h => by
    rw [expr, Report.value_bind]
    exact distinct_exprs members (important || marked) out h
  | .span source variant none, important, out, h => by
    rw [expr, Report.value_bind]
    exact h
  | .span source variant (some child), important, out, h => by
    rw [expr, Report.value_bind, Report.value_bind]
    split
    · exact h.merge _
    · exact h
  | .utility source head marked, important, out, h => by
    rw [expr, Report.value_bind]
    split
    · exact distinct_emit h
    · exact h
  | .property source value marked closed, important, out, h => by
    rw [expr, Report.value_bind]
    split
    · exact distinct_emit h
    · exact h

theorem distinct_exprs : ∀ (es : List ClassList.Expr) (important : Bool) (out : Evaluated),
    out.Distinct → (env.exprs mode apply important es out).value.Distinct
  | [], _, _, h => h
  | e :: rest, important, out, h => by
    rw [exprs, Report.value_bind]
    exact distinct_exprs rest important _ (distinct_expr e important out h)

end

theorem exprs_singleton (important : Bool) (e : ClassList.Expr) (out : Evaluated) :
    env.exprs mode apply important [e] out = env.expr mode apply important e out := by
  rw [exprs]
  exact bind_pure _

section

variable {t : Text} {source : Slice} {head : ClassList.Head}

/-- Where nothing is made important, a class list that is one utility has the style of what is
found for it. -/
theorem evaluate_of_found (himportant : env.settings.important = .all false)
    (hread : (ClassList.read env.separator t).exprs = [.utility source head false])
    (hclosed : head.closed = true) {found : ResolvedUtility}
    (hfound : env.utilityOf head = .ok found) {tree : StyleTree}
    (hstyle : env.styleOf (env.applyWithin applyLevels) found = pure tree)
    (hdistinct : Keyed.Distinct tree) : env.evaluate t = pure ⟨tree, []⟩ := by
  show env.exprs .direct (env.applyWithin applyLevels) false
    (ClassList.read env.separator t).exprs {} = _
  rw [hread, exprs_singleton, expr, hclosed, Bool.not_true, Report.noteIf_false, pure_bind, hfound]
  dsimp only
  rw [hstyle, pure_bind]
  show (pure (env.emit .direct found.spec.flags false tree {}) : Report Evaluated) = _
  unfold emit
  rw [himportant]
  show (pure ⟨StyleTree.merge [] tree, []⟩ : Report Evaluated) = _
  rw [StyleTree.nil_merge hdistinct]

/-- If nothing is found for it, it has no style, and that is noted. -/
theorem evaluate_of_notFound
    (hread : (ClassList.read env.separator t).exprs = [.utility source head false])
    (hclosed : head.closed = true) (hfound : env.utilityOf head = .error .notFound) :
    env.evaluate t = ⟨{}, [⟨.utilityNotFound, source⟩], false⟩ := by
  show env.exprs .direct (env.applyWithin applyLevels) false
    (ClassList.read env.separator t).exprs {} = _
  rw [hread, exprs_singleton, expr, hclosed, Bool.not_true, Report.noteIf_false, pure_bind, hfound]
  rfl

end

/-! ## Composing the variants of a chain -/

/-- The variant has a wrapper. -/
def Resolves (env : Environment) (v : ClassList.Variant) : Prop :=
  (env.wrapper? v).value.isSome = true

instance (env : Environment) (v : ClassList.Variant) : Decidable (env.Resolves v) :=
  inferInstanceAs (Decidable (_ = true))

mutual

/-- A variant resolves only together with all of its parts. -/
theorem Resolves.of_mem_parts : ∀ {v : ClassList.Variant}, env.Resolves v →
    ∀ x ∈ v.parts, env.Resolves x
  | .named .., h, x, hx => by
    rw [List.mem_singleton.mp hx]
    exact h
  | .selector .., h, x, hx => by
    rw [List.mem_singleton.mp hx]
    exact h
  | .group _ members, h, x, hx => by
    rcases List.mem_cons.mp hx with rfl | hx
    · exact h
    · rw [Resolves, wrapper?, Report.value_bind, Report.value_pure, Option.isSome_map] at h
      exact resolves_of_mem_membersParts h x hx

theorem resolves_of_mem_membersParts : ∀ {members : List (List ClassList.Variant)},
    (env.membersWrappers? members).value.isSome = true →
      ∀ x ∈ membersParts members, env.Resolves x
  | [], _, x, hx => absurd hx List.not_mem_nil
  | links :: rest, h, x, hx => by
    obtain ⟨wrappers, hwrappers⟩ := Option.isSome_iff_exists.mp h
    obtain ⟨member, hmember, hothers⟩ := Option.bind_eq_some_iff.mp hwrappers
    obtain ⟨others, hothers', -⟩ := Option.map_eq_some_iff.mp hothers
    rcases List.mem_append.mp hx with hx | hx
    · exact resolves_of_mem_chainParts (Option.isSome_iff_exists.mpr ⟨member, hmember⟩) x hx
    · exact resolves_of_mem_membersParts (Option.isSome_iff_exists.mpr ⟨others, hothers'⟩) x hx

theorem resolves_of_mem_chainParts : ∀ {links : List ClassList.Variant},
    (env.chainWrapper? links).value.isSome = true → ∀ x ∈ chainParts links, env.Resolves x
  | [], _, x, hx => absurd hx List.not_mem_nil
  | v :: rest, h, x, hx => by
    obtain ⟨w, hw⟩ := Option.isSome_iff_exists.mp h
    obtain ⟨outer, houter, hinner⟩ := Option.bind_eq_some_iff.mp hw
    obtain ⟨inner, hinner', -⟩ := Option.map_eq_some_iff.mp hinner
    rcases List.mem_append.mp hx with hx | hx
    · exact Resolves.of_mem_parts (Option.isSome_iff_exists.mpr ⟨outer, houter⟩) x hx
    · exact resolves_of_mem_chainParts (Option.isSome_iff_exists.mpr ⟨inner, hinner'⟩) x hx

end

/-- The wrappers of those variants that resolve, around each other. -/
def kept (env : Environment) : List ClassList.Variant → Wrapper
  | [] => .identity
  | v :: rest => ((env.wrapper? v).value.getD .identity).around (kept env rest)

theorem kept_append (env : Environment) (vs ws : List ClassList.Variant) :
    env.kept (vs ++ ws) = (env.kept vs).around (env.kept ws) := by
  induction vs with
  | nil => rw [List.nil_append, kept, Wrapper.identity_around]
  | cons v vs ih => rw [List.cons_append, kept, kept, ih, Wrapper.around_assoc]

theorem kept_chainShift (n : Nat) (vs : List ClassList.Variant) :
    env.kept (chainShift n vs) = env.kept vs := by
  induction vs with
  | nil => rfl
  | cons v vs ih =>
    rw [chainShift, kept, kept, wrapper?_shift, ih]
    rfl

theorem resolves_shift {n : Nat} {v : ClassList.Variant} :
    env.Resolves (v.shift n) ↔ env.Resolves v := by
  unfold Resolves
  rw [wrapper?_shift]
  rfl

/-- The wrapper of the variant, if it has one, leaves something of every tree that has something
in it. -/
def Lasts (env : Environment) (v : ClassList.Variant) : Prop :=
  ∀ w, (env.wrapper? v).value = some w → w.Lasting

theorem lasts_of_regular (hregular : env.registry.Regular) (v : ClassList.Variant) : env.Lasts v :=
  fun _ hw => lasting_of_wrapper? hregular hw

theorem lasting_kept {vs : List ClassList.Variant} (h : ∀ v ∈ vs, env.Lasts v) :
    (env.kept vs).Lasting := by
  induction vs with
  | nil => exact Wrapper.lasting_identity
  | cons v vs ih =>
    obtain ⟨hv, hrest⟩ := List.forall_mem_cons.mp h
    refine Wrapper.Lasting.around ?_ (ih hrest)
    cases hw : (env.wrapper? v).value with
    | none => exact Wrapper.lasting_identity
    | some w => exact hv w hw

/-- `wrapExpr` puts the variants of the spine that resolve inside of what is there. -/
theorem value_wrapExpr : ∀ (e : ClassList.Expr) (w : Wrapper),
    (env.wrapExpr e w).value = w.around (env.kept e.spine)
  | .span _ v none, w => by
    rw [wrapExpr, Report.value_bind]
    show _ = w.around (((env.wrapper? v).value.getD .identity).around .identity)
    rw [Wrapper.around_identity]
    cases (env.wrapper? v).value with
    | none => exact w.around_identity.symm
    | some inner => rfl
  | .span _ v (some child), w => by
    rw [wrapExpr, Report.value_bind]
    show _ = w.around (((env.wrapper? v).value.getD .identity).around (env.kept child.spine))
    rw [← Wrapper.around_assoc]
    cases (env.wrapper? v).value with
    | none =>
      rw [Option.getD_none, Wrapper.around_identity]
      exact value_wrapExpr child w
    | some inner => exact value_wrapExpr child (w.around inner)
  | .group .., w => w.around_identity.symm
  | .utility .., w => w.around_identity.symm
  | .property .., w => w.around_identity.symm

theorem value_wrapExprs (es : List ClassList.Expr) (w : Wrapper) :
    (env.wrapExprs es w).value = w.around (env.kept (es.flatMap Expr.spine)) := by
  induction es generalizing w with
  | nil => exact w.around_identity.symm
  | cons e rest ih =>
    rw [wrapExprs, Report.value_bind, ih, value_wrapExpr, List.flatMap_cons, kept_append,
      Wrapper.around_assoc]

theorem torn_wrapExpr : ∀ (e : ClassList.Expr) (w : Wrapper), (∀ v ∈ e.spine, v.Sound) →
    (env.wrapExpr e w).torn = false
  | .span _ v none, w, h => by
    rw [wrapExpr, Report.torn_bind, (decisive_wrapper? (h v List.mem_cons_self)).torn]
    rfl
  | .span _ v (some child), w, h => by
    rw [wrapExpr, Report.torn_bind, (decisive_wrapper? (h v List.mem_cons_self)).torn]
    exact torn_wrapExpr child _ fun x hx => h x (List.mem_cons_of_mem _ hx)
  | .group .., _, _ => rfl
  | .utility .., _, _ => rfl
  | .property .., _, _ => rfl

theorem torn_wrapExprs (es : List ClassList.Expr) (w : Wrapper)
    (h : ∀ e ∈ es, ∀ v ∈ e.spine, v.Sound) : (env.wrapExprs es w).torn = false := by
  induction es generalizing w with
  | nil => rfl
  | cons e rest ih =>
    obtain ⟨he, hrest⟩ := List.forall_mem_cons.mp h
    rw [wrapExprs, Report.torn_bind, torn_wrapExpr e w he]
    exact ih _ hrest

/-- Nothing is noted on a spine only if it consists of variants that resolve. -/
theorem diagnostics_wrapExpr : ∀ (e : ClassList.Expr) (w : Wrapper), (∀ v ∈ e.spine, v.Sound) →
    ((env.wrapExpr e w).diagnostics = [] ↔ e.isBare = true ∧ ∀ v ∈ e.spine, env.Resolves v)
  | .span _ v none, w, h => by
    have hnoted : (env.wrapper? v).diagnostics = [] ↔ (env.wrapper? v).value.isSome = true :=
      (decisive_wrapper? (h v List.mem_cons_self)).noted
    rw [wrapExpr, Report.diagnostics_bind, Report.diagnostics_pure, List.append_nil, hnoted]
    simp [Expr.isBare, Expr.spine, Resolves]
  | .span _ v (some child), w, h => by
    have hnoted : (env.wrapper? v).diagnostics = [] ↔ (env.wrapper? v).value.isSome = true :=
      (decisive_wrapper? (h v List.mem_cons_self)).noted
    have hchild : ∀ x ∈ child.spine, x.Sound := fun x hx => h x (List.mem_cons_of_mem _ hx)
    rw [wrapExpr, Report.diagnostics_bind, List.append_eq_nil_iff, hnoted]
    refine (and_congr_right fun _ => diagnostics_wrapExpr child _ hchild).trans ?_
    simp only [Expr.isBare, Expr.spine, List.forall_mem_cons, Resolves]
    exact and_left_comm
  | .group .., _, _ => by simp [wrapExpr, Expr.isBare]
  | .utility .., _, _ => by simp [wrapExpr, Expr.isBare]
  | .property .., _, _ => by simp [wrapExpr, Expr.isBare]

theorem diagnostics_wrapExprs (es : List ClassList.Expr) (w : Wrapper)
    (h : ∀ e ∈ es, ∀ v ∈ e.spine, v.Sound) :
    (env.wrapExprs es w).diagnostics = [] ↔
      ∀ e ∈ es, e.isBare = true ∧ ∀ v ∈ e.spine, env.Resolves v := by
  induction es generalizing w with
  | nil => simp [wrapExprs]
  | cons e rest ih =>
    obtain ⟨he, hrest⟩ := List.forall_mem_cons.mp h
    rw [wrapExprs, Report.diagnostics_bind, List.append_eq_nil_iff, List.forall_mem_cons,
      diagnostics_wrapExpr e w he, ih _ hrest]

/-- The variants of a text are sound. -/
theorem sound_of_mem_spine (sep : Separator) (t : Text) :
    ∀ e ∈ (read sep t).exprs, ∀ v ∈ e.spine, v.Sound := by
  intro e he v hv
  obtain ⟨_, _, _, hlaid⟩ := (read_laid sep t).exists_of_mem e he
  obtain ⟨_, _, hv⟩ := hlaid.exists_of_mem_spine v hv
  exact hv.sound

/-! ## Applying the variants of a chain -/

/-- A variant that resolves wraps what is evaluated inside of it. -/
theorem expr_span {source : Slice} {v : ClassList.Variant} {w : Wrapper} (important : Bool)
    (hw : env.wrapper? v = pure (some w)) (child : ClassList.Expr) :
    env.expr mode apply important (.span source v (some child)) {} =
      (fun x => x.wrapped w) <$> env.expr mode apply important child {} := by
  have hdistinct : (env.expr mode apply important child {}).value.Distinct :=
    distinct_expr child important {} Evaluated.distinct_empty
  rw [expr, hw, pure_bind]
  ext : 1
  · exact (hdistinct.wrapped w).empty_merge
  · simp
  · simp

/-- Variants that resolve, around an expression or around nothing, wrap what is evaluated
inside of them with their wrappers around each other. -/
theorem exprs_of_around {inner : Option ClassList.Expr} (important : Bool) :
    ∀ {vs : List ClassList.Variant} {outer : Option ClassList.Expr}, Around inner vs outer →
      (∀ v ∈ vs, v.Sound ∧ env.Resolves v) → (∀ v ∈ vs, env.Lasts v) →
      env.exprs mode apply important outer.toList {} =
        (fun x => x.wrapped (env.kept vs)) <$> env.exprs mode apply important inner.toList {}
  | _, _, .here, _, _ => by
    have hid : (fun x : Evaluated => x.wrapped (env.kept [])) = id :=
      funext Evaluated.wrapped_identity
    rw [hid, id_map]
  | _, _, @Around.outside _ source v vs outer h, hvs, hlasts => by
    have hrest : ∀ x ∈ vs, x.Sound ∧ env.Resolves x := fun x hx => hvs x (List.mem_cons_of_mem _ hx)
    obtain ⟨hsound, hresolves⟩ := hvs v List.mem_cons_self
    obtain ⟨w, hw⟩ := Option.isSome_iff_exists.mp hresolves
    have hlasts' : ∀ x ∈ vs, env.Lasts x := fun x hx => hlasts x (List.mem_cons_of_mem _ hx)
    have hlasting := lasting_kept hlasts'
    have ih := exprs_of_around important h hrest hlasts'
    have hkept : (fun x : Evaluated => x.wrapped (env.kept (v :: vs))) =
        (fun x => x.wrapped w) ∘ fun x => x.wrapped (env.kept vs) := by
      funext x
      rw [kept, hw]
      exact x.wrapped_around w hlasting
    have hpure := (decisive_wrapper? hsound).eq_pure hw
    cases outer with
    | none =>
      -- with nothing inside there is nothing to wrap
      cases h
      rw [Option.toList_some, exprs_singleton, expr, hpure]
      rfl
    | some child =>
      rw [Option.toList_some, exprs_singleton] at ih ⊢
      rw [expr_span important hpure, ih, hkept, comp_map]

end Environment
end UtilityCss
