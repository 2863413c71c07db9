import UtilityCss.Registry.Selector
import UtilityCss.Registry.Spec

/-!
# The registry

The registry holds under each name the utilities registered for it, in the order
of registration, and likewise the variants; global styles are merged as they come.

A strict registry takes a static registration only once.  What counts as the same
is the name of a class together with its context, and the name of a variant.
-/

namespace UtilityCss

/-- Specs under names, in the order of registration. -/
abbrev SpecTable (α : Type) := List (Text × List α)

namespace SpecTable

variable {α : Type}

/-- The specs under a name. -/
def specs (table : SpecTable α) (name : Text) : List α := (table.lookup name).getD []

/-- Adds a spec under a name, after those that are there. -/
def push (table : SpecTable α) (name : Text) (spec : α) : SpecTable α :=
  Keyed.put name (specs table name ++ [spec]) table

/-- The specs under a name after one has been added. -/
theorem specs_push_self (table : SpecTable α) (name : Text) (spec : α) :
    specs (push table name spec) name = specs table name ++ [spec] := by
  simp [specs, push]

/-- The specs under any other name are what they were. -/
theorem specs_push_of_ne (table : SpecTable α) {name other : Text} (h : other ≠ name)
    (spec : α) : specs (push table name spec) other = specs table other := by
  simp [specs, push, Keyed.lookup_put_of_ne h]

end SpecTable

/-- Everything that plugins have registered. -/
structure Registry where
  utilities : SpecTable UtilitySpec
  variants : SpecTable VariantSpec
  base : StyleTree

namespace Registry

/-- The registry before any plugin has run. -/
def empty : Registry := ⟨[], [], []⟩

/-- The two tables of a registry. -/
inductive Table where
  | utility
  | variant
  deriving DecidableEq, Repr

/-- A static registration that came twice. -/
structure Duplicate where
  table : Table
  key : Text
  deriving DecidableEq, Repr

/-- A registry being built, with the keys that have been claimed. -/
structure Builder where
  registry : Registry
  claimed : List (Table × Text)

namespace Builder

/-- The builder before any plugin has run. -/
def start : Builder := ⟨.empty, []⟩

/-- Claims a key for a static registration. -/
def claim (strict : Bool) (b : Builder) (table : Table) (key : Text) :
    Except Duplicate Builder :=
  if (table, key) ∈ b.claimed then
    if strict then .error ⟨table, key⟩ else .ok b
  else .ok { b with claimed := (table, key) :: b.claimed }

/-- Claims the keys of classes one after the other. -/
def claimClasses (strict : Bool) : Builder → List Selector.ClassBody → Except Duplicate Builder
  | b, [] => .ok b
  | b, c :: rest => do claimClasses strict (← b.claim strict .utility c.key) rest

/-- The trees of classes of one name merged, in the order in which the names come. -/
def grouped (found : List Selector.ClassBody) : List (Text × StyleTree) :=
  found.foldl
    (fun table c =>
      Keyed.put c.name (StyleTree.merge ((table.lookup c.name).getD []) c.nested) table)
    []

/-- Adds a utility. -/
def pushUtility (b : Builder) (name : Text) (spec : UtilitySpec) : Builder :=
  { b with
    registry := { b.registry with utilities := b.registry.utilities.push name spec } }

/-- Adds a variant. -/
def pushVariant (b : Builder) (name : Text) (spec : VariantSpec) : Builder :=
  { b with
    registry := { b.registry with variants := b.registry.variants.push name spec } }

/-- Takes one registration of a plugin. -/
def register (strict : Bool) (plugin : Text) (b : Builder) :
    Registration → Except Duplicate Builder
  | .base tree =>
    .ok { b with registry := { b.registry with base := StyleTree.merge b.registry.base tree } }
  | .classes tree flags => do
    let found := Selector.bodies [] tree
    let b ← b.claimClasses strict found
    return (grouped found).foldl
      (fun b entry => b.pushUtility entry.1 ⟨plugin, .fixed entry.2 flags⟩) b
  | .utility name utility => .ok (b.pushUtility name ⟨plugin, .lookup utility⟩)
  | .variant name (.fixed templates) post => do
    let b ← b.claim strict .variant name
    return b.pushVariant name ⟨plugin, .fixed templates, post⟩
  | .variant name (.lookup variant) post =>
    .ok (b.pushVariant name ⟨plugin, .lookup variant, post⟩)

/-- Takes registrations one after the other. -/
def registerAll (strict : Bool) (plugin : Text) :
    Builder → List Registration → Except Duplicate Builder
  | b, [] => .ok b
  | b, r :: rest => do registerAll strict plugin (← b.register strict plugin r) rest

/-- Runs plugins one after the other. -/
def run (strict : Bool) (around : Surroundings) :
    Builder → List Plugin → Except Duplicate Builder
  | b, [] => .ok b
  | b, p :: rest => do
    run strict around (← b.registerAll strict p.name (p.register around)) rest

end Builder

/-- The registry that plugins fill, or the first static registration that a strict
registry refuses. -/
def build (strict : Bool) (around : Surroundings) (plugins : List Plugin) :
    Except Duplicate Registry :=
  (Builder.start.run strict around plugins).map Builder.registry

end Registry
end UtilityCss
