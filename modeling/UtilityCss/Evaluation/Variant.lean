import UtilityCss.Evaluation.Environment

/-!
# Resolving variants

Variants are resolved like utilities, by the readings of their names, except that
a leading hyphen means nothing to them.  A reading needs exactly one candidate.
The static variants of one name count together, their templates in order.
-/

namespace UtilityCss
namespace Environment

variable (env : Environment)

/-- The wrapper of a variant that makes these templates. -/
def wrapperOf (spec : VariantSpec) (templates : List Text) : Wrapper :=
  .single (.ofTemplates templates spec.post)

/-- The templates of a reading that a lookup variant makes, if it takes the value. -/
def renderVariant? (v : LookupVariant) (r : Reading) : Option Text :=
  let entry :=
    match r.value with
    | none => v.values.lookup ("DEFAULT" : Text)
    | some value =>
      if value = "DEFAULT" then none
      else
        (r.full.filter (· != value)).bind (fun full => v.values.lookup full)
          <|> v.values.lookup value
  match entry.bind Value.entryText? with
  | none => none
  | some text => v.render text (r.modifier.map ModifierText.text)

/-- The static variants among specs: the first of them, and the templates of all. -/
def staticTemplates? (specs : List VariantSpec) : Option (VariantSpec × List Text) :=
  let found := specs.filterMap fun spec =>
    match spec.rule with
    | .fixed templates => some (spec, templates)
    | .lookup _ => none
  match found with
  | [] => none
  | (spec, templates) :: rest => some (spec, templates ++ rest.flatMap Prod.snd)

/-- The candidates for a reading, as specs with their templates. -/
def variantCandidates (specs : List VariantSpec) (r : Reading) :
    List (VariantSpec × List Text) :=
  let static :=
    if r.value.isSome || r.modifier.isSome then none else staticTemplates? specs
  let lookups := specs.filterMap fun spec =>
    match spec.rule with
    | .fixed _ => none
    | .lookup v => (renderVariant? v r).map fun template => (spec, [template])
  static.toList ++ lookups

/-- The decision among candidates, none when there are none. -/
def chooseVariant? (key : Text) (candidates : List (VariantSpec × List Text)) :
    Option (Except Failure ResolvedVariant) :=
  match candidates with
  | [] => none
  | [(spec, templates)] => some (.ok ⟨key, some spec, wrapperOf spec templates⟩)
  | _ => some (.error .ambiguous)

/-- The decision of the first reading that has candidates. -/
def decideVariant? : List Reading → Except Failure ResolvedVariant
  | [] => .error .notFound
  | r :: rest =>
    match chooseVariant? r.key (variantCandidates (env.registry.variants.specs r.key) r) with
    | some decision => decision
    | none => decideVariant? rest

/-- Resolves a plain name with its modifier still on it. -/
def variant (name : Text) (modifier : Option ModifierText) : Except Failure ResolvedVariant :=
  match Reading.all? env.registry.variants VariantSpec.isLookup name modifier with
  | none => .error .torn
  | some readings => env.decideVariant? (readings.filter fun r => !r.negative)

/-- Resolves a name with a bracketed value, which has been prepared already. -/
def bracketedVariant (name value : Text) (modifier : Option ModifierText) :
    Except Failure ResolvedVariant :=
  let candidates := (env.registry.variants.specs name).filterMap fun spec =>
    match spec.rule with
    | .fixed _ => none
    | .lookup v =>
      (v.render value (modifier.map ModifierText.text)).map fun template => (spec, [template])
  match chooseVariant? name candidates with
  | some decision => decision
  | none => .error .notFound

/-- Resolves a selector in brackets. -/
def selectorVariant (raw : Text) : Except Failure ResolvedVariant :=
  match Bracketed.selector? raw with
  | some selector => .ok ⟨[], none, .single (.ofTemplates [selector] none)⟩
  | none => .error .notFound

/-- Resolves a variant that is not a group. -/
def singleVariant : ClassList.Variant → Except Failure ResolvedVariant
  | .named _ head =>
    let modifier := head.modifier.map ClassList.Modifier.written
    match head with
    | .plain name _ => env.variant name.text modifier
    | .bracketed lead value _ _ =>
      env.bracketedVariant lead.text (Bracketed.value env.theme value.text) modifier
  | .selector _ inner => selectorVariant inner.text
  | .group .. => .error .notFound

/-- The wrapper of a variant that is not a group, none when it does not resolve. -/
def resolved? (v : ClassList.Variant) : Report (Option Wrapper) := do
  Report.noteIf (!v.closed) .parseIncomplete v.source
  match env.singleVariant v with
  | .ok found => return some found.wrapper
  | .error failure =>
    failure.report .variantNotFound v.source
    return none

mutual

/-- The wrapper of a variant, none when a part of it does not resolve.  The members
of a group report for themselves. -/
def wrapper? : ClassList.Variant → Report (Option Wrapper)
  | .group _ members => do
    let wrappers ← membersWrappers? members
    return wrappers.map Wrapper.group
  | .named source head => env.resolved? (.named source head)
  | .selector source inner => env.resolved? (.selector source inner)

/-- The wrappers of the chains of a group, none when one of them does not resolve. -/
def membersWrappers? : List (List ClassList.Variant) → Report (Option (List Wrapper))
  | [] => return some []
  | links :: rest => do
    let member ← chainWrapper? links
    let others ← membersWrappers? rest
    return member.bind fun member => others.map (member :: ·)

/-- The wrapper of a chain, none when one of its links does not resolve. -/
def chainWrapper? : List ClassList.Variant → Report (Option Wrapper)
  | [] => return some .identity
  | v :: rest => do
    let outer ← wrapper? v
    let inner ← chainWrapper? rest
    return outer.bind fun outer => inner.map outer.around

end

end Environment
end UtilityCss
