import UtilityCss.Proofs.Evaluation.Apart
import UtilityCss.Proofs.Evaluation.Fault
import UtilityCss.Proofs.Evaluation.Registration

/-!
# Names that built-in plugins share

Some names stand for several things: `text` for a color or a size, `font` for a weight or a
family, `border` for a width or a color.  Each of them is registered twice by the built-in
plugins, for kinds that are apart, so a bracketed value behind the name is never ambiguous.
-/

namespace UtilityCss

open Value (Kind)

namespace Value.Kind

/-- The kinds that are known to be apart from colors, and from numbers. -/
def isKnownApart : Kind → Kind → Bool
  | color, k => k ∈ [length, percentage, lineWidth, absoluteSize, relativeSize]
  | number, k => k ∈ [genericName, familyName]
  | _, _ => false

theorem apart_of_isKnownApart {k l : Kind} (h : isKnownApart k l = true) : k.Apart l := by
  unfold isKnownApart at h
  split at h
  · have hmem := of_decide_eq_true h
    simp only [List.mem_cons, List.not_mem_nil, or_false] at hmem
    rcases hmem with rfl | rfl | rfl | rfl | rfl
    · exact color_apart_length
    · exact color_apart_percentage
    · exact color_apart_lineWidth
    · exact color_apart_absoluteSize
    · exact color_apart_relativeSize
  · have hmem := of_decide_eq_true h
    simp only [List.mem_cons, List.not_mem_nil, or_false] at hmem
    rcases hmem with rfl | rfl
    · exact number_apart_genericName
    · exact number_apart_familyName
  · cases h

end Value.Kind

namespace LookupUtility

/-- Is it known that the utilities are apart? -/
def isKnownApart (u v : LookupUtility) : Bool :=
  u.kinds.all fun k => v.kinds.all fun l =>
    k != l && (k == .any || l == .any || k.isKnownApart l || l.isKnownApart k)

theorem apart_of_isKnownApart {u v : LookupUtility} (h : u.isKnownApart v = true) : u.Apart v := by
  have hkinds : ∀ k ∈ u.kinds, ∀ l ∈ v.kinds,
      (k != l && (k == .any || l == .any || k.isKnownApart l || l.isKnownApart k)) = true :=
    fun k hk l hl => List.all_eq_true.mp (List.all_eq_true.mp h k hk) l hl
  constructor
  · intro k hk hl
    have hne := (Bool.and_eq_true_iff.mp (hkinds k hk k hl)).1
    rw [bne_self_eq_false] at hne
    exact Bool.noConfusion hne
  · intro k hk l hl hkany hlany
    have hknown := (Bool.and_eq_true_iff.mp (hkinds k hk l hl)).2
    simp only [Bool.or_eq_true, beq_iff_eq, hkany, hlany, false_or] at hknown
    rcases hknown with hknown | hknown
    · exact Kind.apart_of_isKnownApart hknown
    · exact (Kind.apart_of_isKnownApart hknown).symm

end LookupUtility

/-- The names that built-in plugins share. -/
def Builtin.sharedNames : List Text :=
  ["text", "font", "border", "border-x", "border-y", "border-t", "border-r", "border-b",
    "border-l"]

namespace Registry

/-- Two utilities that take values are registered under the name.  They are known to be apart,
and one of them takes any value. -/
def sharesName (registry : Registry) (name : Text) : Bool :=
  match registry.utilities.specs name with
  | [⟨_, .lookup u⟩, ⟨_, .lookup v⟩] =>
    u.isKnownApart v && (u.kinds.contains .any != v.kinds.contains .any)
  | _ => false

theorem of_sharesName {registry : Registry} {name : Text}
    (h : registry.sharesName name = true) : ∃ p u q v,
      registry.utilities.specs name = [⟨p, .lookup u⟩, ⟨q, .lookup v⟩] ∧ u.Apart v ∧
        (Kind.any ∈ u.kinds ↔ Kind.any ∉ v.kinds) := by
  unfold sharesName at h
  split at h
  · rename_i p u q v hspecs
    obtain ⟨hknown, hany⟩ := Bool.and_eq_true_iff.mp h
    refine ⟨p, u, q, v, hspecs, LookupUtility.apart_of_isKnownApart hknown, ?_⟩
    rw [← List.contains_iff_mem, ← List.contains_iff_mem]
    revert hany
    cases u.kinds.contains Kind.any <;> cases v.kinds.contains Kind.any <;> decide
  · cases h

end Registry

/-- What is not ambiguous is not noted as such. -/
theorem kind_ne_of_mem_notesOn {α : Type} {slice : Slice} {r : Except Failure α}
    (h : r ≠ .error .ambiguous) :
    ∀ d ∈ notesOn .utilityNotFound slice r, d.kind ≠ .ambiguousMatch := by
  intro d hd
  cases r with
  | ok found => exact absurd hd List.not_mem_nil
  | error failure =>
    cases failure with
    | notFound =>
      rw [List.mem_singleton.mp hd]
      exact DiagnosticKind.noConfusion
    | ambiguous => exact absurd rfl h
    | torn => exact absurd hd List.not_mem_nil

namespace Context

/-- The context of the built-in preset is built, its names have no configured beginning, and the
built-in plugins share the names that they are said to share. -/
theorem builtin_sharesNames : ∃ ctx, builtin = .ok ctx ∧ ctx.env.settings.lead = [] ∧
    ∀ name ∈ Builtin.sharedNames, ctx.env.registry.sharesName name = true :=
  exists_of_toOption_any (by decide +kernel)

/-- In the context of the built-in preset, two utilities are registered under each of the names
that built-in plugins share.  They have no kind in common and no value is of kinds of both, at
most one of them takes a given value for one of its kinds, and exactly one takes any value.  So
one of these names with a bracketed value, whatever the value and its modifier, never resolves to
an ambiguity, and none is noted. -/
theorem builtin_bracketed_unambiguous : ∃ ctx, builtin = .ok ctx ∧
    ∀ name ∈ Builtin.sharedNames,
      (∃ p u q v, ctx.env.registry.utilities.specs name = [⟨p, .lookup u⟩, ⟨q, .lookup v⟩] ∧
        u.Apart v ∧ (Kind.any ∈ u.kinds ↔ Kind.any ∉ v.kinds) ∧
        ∀ value negative m tree,
          ctx.env.renderBracketed? u value negative m = some (tree, true) →
            ∀ tree', ctx.env.renderBracketed? v value negative m ≠ some (tree', true)) ∧
      ∀ start value m closed,
        let head : ClassList.Head := .bracketed ⟨start, name⟩ value m closed
        ctx.env.utilityOf head ≠ .error .ambiguous ∧
          ∀ mode important marked source out, ∀ d ∈ (ctx.env.expr mode
            (ctx.env.applyWithin Environment.applyLevels) important
            (.utility source head marked) out).diagnostics, d.kind ≠ .ambiguousMatch := by
  obtain ⟨ctx, hbuiltin, hlead, hshared⟩ := builtin_sharesNames
  refine ⟨ctx, hbuiltin, fun name hname => ?_⟩
  obtain ⟨p, u, q, v, hspecs, hapart, hany⟩ := Registry.of_sharesName (hshared name hname)
  refine ⟨⟨p, u, q, v, hspecs, hapart, hany, fun value negative m tree =>
    Environment.renderBracketed?_of_apart hapart⟩, fun start value m closed => ?_⟩
  have hpairwise : (ctx.env.registry.utilities.specs name).Pairwise UtilitySpec.Apart := by
    rw [hspecs]
    refine List.pairwise_pair.mpr fun u' v' hu hv => ?_
    cases hu
    cases hv
    exact ⟨hapart, fun ⟨hu, hv⟩ => hany.mp hu hv⟩
  have hunambiguous :
      ctx.env.utilityOf (.bracketed ⟨start, name⟩ value m closed) ≠ .error .ambiguous := by
    refine Environment.utilityOf_bracketed_ne_ambiguous ?_
    have hreadings : Environment.bracketedReadings name = [(name, false)] := by
      have hpositive : ∀ name ∈ Builtin.sharedNames, Reading.positive? name = none := by decide
      rw [Environment.bracketedReadings, hpositive name hname]
      rfl
    rw [Environment.stripLead_of_lead_eq_nil hlead, hreadings]
    exact List.forall_mem_singleton.mpr hpairwise
  refine ⟨hunambiguous, fun mode important marked source out d hd => ?_⟩
  rw [Environment.diagnostics_expr_utility (Environment.diagnostics_applyWithin _)] at hd
  rcases List.mem_append.mp hd with hd | hd
  · unfold incomplete at hd
    split at hd
    · cases hd
    · rw [List.mem_singleton.mp hd]
      exact DiagnosticKind.noConfusion
  · exact kind_ne_of_mem_notesOn hunambiguous d hd

end Context
end UtilityCss
