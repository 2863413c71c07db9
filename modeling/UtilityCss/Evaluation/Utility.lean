import UtilityCss.Evaluation.Environment

/-!
# Resolving utilities

The readings of a name are tried in turn.  For each, every utility registered
under its key that renders the value is a candidate, and the first reading with a
candidate decides: it has to have exactly one.  For bracketed values candidates
that accept the value by a kind that says something go before those that accept
anything.

Static utilities of one name count together as one candidate, their trees merged.
-/

namespace UtilityCss

/-- A utility that renders the value it was offered. -/
structure Candidate where
  spec : UtilitySpec
  tree : StyleTree
  /-- Was the value accepted by something more specific than the kind `any`? -/
  strong : Bool

namespace Candidate

/-- The decision among candidates, none when there are none. -/
def choose? (key : Text) (candidates : List Candidate) : Option (Except Failure ResolvedUtility) :=
  let strong := candidates.filter Candidate.strong
  match if strong.isEmpty then candidates else strong with
  | [] => none
  | [c] => some (.ok ⟨key, c.spec, c.tree⟩)
  | _ => some (.error .ambiguous)

end Candidate

namespace LookupUtility

/-- Renders a text; an empty tree is no style. -/
def finish? (u : LookupUtility) (text : Text) (info : RenderInfo) : Option StyleTree :=
  let tree := u.render text info
  if tree.isEmpty then none
  else
    match u.post with
    | some post => some (post tree)
    | none => some tree

/-- The kind by which entries of the table are formatted. -/
def tableKind (u : LookupUtility) : Value.Kind :=
  if u.flags.color then .color
  else (u.kinds.find? (· != .any)).getD .any

/-- The entry that a reading asks for, and the modifier that is left over.  A value
is looked up with its modifier first, which then belongs to the value. -/
def entry? (u : LookupUtility) (r : Reading) : Option (Data × Option ModifierText) :=
  match r.value with
  | none =>
    if u.flags.filterDefault then none
    else (u.values.lookup ("DEFAULT" : Text)).map fun entry => (entry, r.modifier)
  | some value =>
    if value = "DEFAULT" then none
    else
      match (r.full.filter (· != value)).bind fun full => u.values.lookup full with
      | some entry => some (entry, none)
      | none => (u.values.lookup value).map fun entry => (entry, r.modifier)

end LookupUtility

/-- Can a table value be negated: is it a number, or computed? -/
def canNegate (t : Text) : Bool :=
  (Value.dimensionClass? t).isSome || Value.isMathFunction t || Value.isReference t

namespace Environment

variable (env : Environment)

/-- The name without the configured beginning, which follows a leading hyphen, and
whether it was there. -/
def stripLead (name : Text) : Text × Bool :=
  let lead := env.settings.lead
  if lead.isEmpty then (name, false)
  else
    match Reading.positive? name with
    | some body =>
      match Text.dropLead? lead body with
      | some rest => ('-' :: rest, true)
      | none => (name, false)
    | none =>
      match Text.dropLead? lead name with
      | some rest => (rest, true)
      | none => (name, false)

/-- Is a utility with these flags reached by a name with or without the configured
beginning? -/
def allows (flags : Flags) (led : Bool) : Bool :=
  env.settings.lead.isEmpty || flags.respectsLead == led

/-- The opacity of a modifier; in brackets it is taken as it is written. -/
def opacityOf? (m : ModifierText) : Option Text :=
  if m.wrapped then some m.text else env.theme.modifierOpacity? m.text

/-- The opacity that a modifier gives to values of a kind: `none` if the modifier is
not an opacity, `some none` if there is nothing to give. -/
def opacityFor? (kind : Value.Kind) (modifier : Option ModifierText) : Option (Option Text) :=
  match modifier with
  | some m => if kind = .color then (env.opacityOf? m).map some else some none
  | none => some none

/-- The modifier that is handed on to the render function: colors use it up. -/
def passedOn (kind : Value.Kind) (modifier : Option ModifierText) : Option Text :=
  if kind = .color then none else modifier.map ModifierText.text

/-- Renders a lookup utility for a reading. -/
def renderEntry? (u : LookupUtility) (r : Reading) : Option StyleTree := do
  if r.negative && !u.flags.negative then none
  let (entry, modifier) ← u.entry? r
  let kind := u.tableKind
  let opacity ← env.opacityFor? kind modifier
  let text ← kind.formatEntry? entry false opacity none
  let text ←
    if r.negative then
      if canNegate text then kind.formatEntry? (.text text) true none none else none
    else some text
  u.finish? text
    { modifier := passedOn kind modifier, kind := none, entry := some entry, theme := env.theme }

/-- Renders a lookup utility for a bracketed value, offering the value to kinds in
turn.  The kind that accepts it decides. -/
def renderKinds? (u : LookupUtility) (value : Text) (negative pinned : Bool)
    (modifier : Option ModifierText) : List Value.Kind → Option (StyleTree × Bool)
  | [] => none
  | kind :: rest =>
    match env.opacityFor? kind modifier with
    | none => renderKinds? u value negative pinned modifier rest
    | some opacity =>
      match kind.formatValue? value negative pinned opacity with
      | none => renderKinds? u value negative pinned modifier rest
      | some text =>
        let info : RenderInfo :=
          { modifier := passedOn kind modifier, kind := some kind, entry := none
            theme := env.theme }
        (u.finish? text info).map fun tree => (tree, pinned || kind != .any)

/-- Renders a lookup utility for a bracketed value.  A tag pins the kind, which the
utility has to take. -/
def renderBracketed? (u : LookupUtility) (value : Text) (negative : Bool)
    (modifier : Option ModifierText) : Option (StyleTree × Bool) :=
  if negative && !u.flags.negative then none
  else
    match Value.splitTag? value with
    | some (kind, rest) =>
      if u.kinds.contains kind then env.renderKinds? u rest negative true modifier [kind]
      else none
    | none => env.renderKinds? u value negative false modifier u.kinds

/-- The candidate that the static utilities among specs make together. -/
def staticCandidate? : List UtilitySpec → Option Candidate
  | [] => none
  | spec :: rest =>
    match spec.rule with
    | .fixed tree _ =>
      some
        { spec := spec
          tree := rest.foldl
            (fun tree other =>
              match other.rule with
              | .fixed more _ => StyleTree.merge tree more
              | .lookup _ => tree)
            tree
          strong := true }
    | .lookup _ => staticCandidate? rest

/-- The candidates for a reading. -/
def candidates (specs : List UtilitySpec) (r : Reading) (led : Bool) : List Candidate :=
  let allowed := specs.filter fun spec => env.allows spec.flags led
  let static :=
    if r.value.isSome || r.negative || r.modifier.isSome then none
    else staticCandidate? allowed
  let lookups := allowed.filterMap fun spec =>
    match spec.rule with
    | .fixed .. => none
    | .lookup u => (env.renderEntry? u r).map fun tree => ⟨spec, tree, true⟩
  static.toList ++ lookups

/-- The decision of the first reading that has candidates. -/
def decide? (led : Bool) : List Reading → Except Failure ResolvedUtility
  | [] => .error .notFound
  | r :: rest =>
    match Candidate.choose? r.key (env.candidates (env.registry.utilities.specs r.key) r led) with
    | some decision => decision
    | none => decide? led rest

/-- Resolves a plain name with its modifier still on it. -/
def utility (name : Text) (modifier : Option ModifierText) : Except Failure ResolvedUtility :=
  let (name, led) := env.stripLead name
  match Reading.all? env.registry.utilities UtilitySpec.isLookup name modifier with
  | none => .error .torn
  | some readings => env.decide? led readings

/-- The candidates for a bracketed value under a name. -/
def bracketedCandidates (name value : Text) (negative : Bool) (modifier : Option ModifierText)
    (led : Bool) : List Candidate :=
  let allowed := (env.registry.utilities.specs name).filter fun spec => env.allows spec.flags led
  allowed.filterMap fun spec =>
    match spec.rule with
    | .fixed .. => none
    | .lookup u =>
      (env.renderBracketed? u value negative modifier).map fun (tree, strong) =>
        ⟨spec, tree, strong⟩

/-- Resolves a name with a bracketed value, which has been prepared already. -/
def bracketedUtility (name value : Text) (modifier : Option ModifierText) :
    Except Failure ResolvedUtility :=
  let (name, led) := env.stripLead name
  let decide (key : Text) (negative : Bool) :=
    Candidate.choose? key (env.bracketedCandidates key value negative modifier led)
  match decide name false <|> (Reading.positive? name).bind fun key => decide key true with
  | some decision => decision
  | none => .error .notFound

/-- Resolves the head of a utility. -/
def utilityOf (head : ClassList.Head) : Except Failure ResolvedUtility :=
  let modifier := head.modifier.map ClassList.Modifier.written
  match head with
  | .plain name _ => env.utility name.text modifier
  | .bracketed lead value _ _ =>
    env.bracketedUtility lead.text (Bracketed.value env.theme value.text) modifier

end Environment
end UtilityCss
