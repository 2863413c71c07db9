import UtilityCss.Proofs.Registry.WellKeyed

/-!
# Claims

A static registration claims a key before it adds anything: a class its name together with its
context, a variant its name.  A strict registry fails at the first key that is claimed again.
A lenient one passes over it, and as long as there is none the two do the same.

So what a strict registry does is decided by the keys alone, in the order in which they are
claimed: `repeated?` is the first of them that was there before.  `Follows` says this of one step,
and it goes through any sequence of steps.
-/

namespace UtilityCss

open Registry (Table Duplicate)

/-- The keys that a registration claims, in order. -/
def Registration.claims : Registration → List (Table × Text)
  | .classes tree _ => (Selector.bodies [] tree).map fun c => (.utility, c.key)
  | .variant name (.fixed _) _ => [(.variant, name)]
  | .variant _ (.lookup _) _ => []
  | .base _ => []
  | .utility .. => []

/-- The keys that the plugin claims, in order. -/
def Plugin.claims (around : Surroundings) (plugin : Plugin) : List (Table × Text) :=
  (plugin.register around).flatMap Registration.claims

namespace Registry

/-! ## The first repeated key -/

/-- The first of the keys that is one of those before it, or of those that were there already. -/
def repeated? : List (Table × Text) → List (Table × Text) → Option Duplicate
  | _, [] => none
  | seen, key :: rest =>
    if seen.contains key then some ⟨key.1, key.2⟩ else repeated? (key :: seen) rest

theorem repeated?_cons_of_mem {key : Table × Text} {seen : List (Table × Text)} (h : key ∈ seen)
    (rest : List (Table × Text)) : repeated? seen (key :: rest) = some ⟨key.1, key.2⟩ := by
  rw [repeated?, if_pos (List.contains_iff_mem.mpr h)]

theorem repeated?_cons_of_not_mem {key : Table × Text} {seen : List (Table × Text)}
    (h : key ∉ seen) (rest : List (Table × Text)) :
    repeated? seen (key :: rest) = repeated? (key :: seen) rest := by
  rw [repeated?, if_neg (mt List.contains_iff_mem.mp h)]

theorem repeated?_append : ∀ (keys seen more : List (Table × Text)),
    repeated? seen (keys ++ more) = (repeated? seen keys).or (repeated? (keys.reverse ++ seen) more)
  | [], seen, more => by rw [List.nil_append, repeated?, Option.none_or]; rfl
  | key :: keys, seen, more => by
    rw [List.cons_append, List.reverse_cons, List.append_assoc]
    by_cases hseen : key ∈ seen
    · rw [repeated?_cons_of_mem hseen, repeated?_cons_of_mem hseen, Option.some_or]
    · rw [repeated?_cons_of_not_mem hseen, repeated?_cons_of_not_mem hseen]
      exact repeated?_append keys (key :: seen) more

/-- No key is repeated if they differ from each other and from those that were there. -/
theorem repeated?_eq_none_iff : ∀ {keys seen : List (Table × Text)},
    repeated? seen keys = none ↔ keys.Nodup ∧ ∀ key ∈ keys, key ∉ seen
  | [], _ => by simp [repeated?]
  | key :: keys, seen => by
    rw [List.nodup_cons, List.forall_mem_cons]
    by_cases hseen : key ∈ seen
    · rw [repeated?_cons_of_mem hseen]
      exact ⟨fun h => absurd h (Option.some_ne_none _), fun h => absurd hseen h.2.1⟩
    · rw [repeated?_cons_of_not_mem hseen, repeated?_eq_none_iff]
      simp only [List.mem_cons, not_or]
      constructor
      · rintro ⟨hnodup, hkeys⟩
        exact ⟨⟨fun hmem => (hkeys key hmem).1 rfl, hnodup⟩, hseen, fun k hk => (hkeys k hk).2⟩
      · rintro ⟨⟨hkey, hnodup⟩, -, hkeys⟩
        exact ⟨hnodup, fun k hk => ⟨fun h => hkey (h ▸ hk), hkeys k hk⟩⟩

/-- The first repeated key is one of those before it, which are not repeated. -/
theorem repeated?_eq_some_iff : ∀ {keys : List (Table × Text)} {d : Duplicate},
    repeated? [] keys = some d ↔ ∃ front rest, keys = front ++ (d.table, d.key) :: rest ∧
      front.Nodup ∧ (d.table, d.key) ∈ front := by
  intro keys d
  constructor
  · intro h
    -- cut behind the longest beginning without a repeated key
    suffices hcut : ∀ (keys seen : List (Table × Text)), repeated? seen keys = some d →
        ∃ front rest, keys = front ++ (d.table, d.key) :: rest ∧ repeated? seen front = none ∧
          (d.table, d.key) ∈ front.reverse ++ seen by
      obtain ⟨front, rest, hkeys, hfront, hmem⟩ := hcut keys [] h
      rw [List.append_nil, List.mem_reverse] at hmem
      exact ⟨front, rest, hkeys, (repeated?_eq_none_iff.mp hfront).1, hmem⟩
    intro keys
    induction keys with
    | nil => exact fun _ h => absurd h (Option.some_ne_none d).symm
    | cons key keys ih =>
      intro seen h
      by_cases hseen : key ∈ seen
      · rw [repeated?_cons_of_mem hseen] at h
        cases h
        exact ⟨[], keys, rfl, rfl, hseen⟩
      · rw [repeated?_cons_of_not_mem hseen] at h
        obtain ⟨front, rest, hkeys, hfront, hmem⟩ := ih (key :: seen) h
        refine ⟨key :: front, rest, by rw [hkeys, List.cons_append], ?_, ?_⟩
        · rw [repeated?_cons_of_not_mem hseen, hfront]
        · rwa [List.reverse_cons, List.append_assoc]
  · rintro ⟨front, rest, rfl, hnodup, hmem⟩
    have hfront : repeated? [] front = none :=
      repeated?_eq_none_iff.mpr ⟨hnodup, fun _ _ => List.not_mem_nil⟩
    have hseen : (d.table, d.key) ∈ front.reverse ++ [] := by
      rw [List.append_nil]
      exact List.mem_reverse.mpr hmem
    rw [repeated?_append, hfront, Option.none_or, repeated?_cons_of_mem hseen]

/-- What is somewhere in lists one after the other is in one of them. -/
theorem exists_of_flatMap_eq {α β : Type} {f : α → List β} {x : β} {rest : List β} :
    ∀ {l : List α} {front : List β}, l.flatMap f = front ++ x :: rest →
      ∃ before a after own more, l = before ++ a :: after ∧ f a = own ++ x :: more ∧
        front = before.flatMap f ++ own
  | [], front, h => absurd h.symm (List.append_ne_nil_of_right_ne_nil _ (List.cons_ne_nil _ _))
  | a :: l, front, h => by
    have further : ∀ {front' : List β}, l.flatMap f = front' ++ x :: rest →
        ∃ before b after own more, a :: l = before ++ b :: after ∧ f b = own ++ x :: more ∧
          f a ++ front' = before.flatMap f ++ own := fun h => by
      obtain ⟨before, b, after, own, more, rfl, hb, rfl⟩ := exists_of_flatMap_eq h
      exact ⟨a :: before, b, after, own, more, rfl, hb, by
        rw [List.flatMap_cons, List.append_assoc]⟩
    rw [List.flatMap_cons] at h
    rcases List.append_eq_append_iff.mp h with ⟨front', rfl, hl⟩ | ⟨more, ha, hl⟩
    · exact further hl
    · cases more with
      | nil =>
        rw [List.append_nil] at ha
        rw [← ha, ← List.append_nil (f a)]
        exact further hl.symm
      | cons y more =>
        obtain ⟨rfl, -⟩ := List.cons.inj hl
        exact ⟨[], a, l, front, more, rfl, ha, rfl⟩

/-- The first key that the plugins claim a second time: one that a plugin claims, where all that
was claimed before, by plugins before it and by itself, is different, and the key is among it. -/
def FirstRepeated (around : Surroundings) (plugins : List Plugin) (d : Duplicate) : Prop :=
  ∃ before plugin after front rest, plugins = before ++ plugin :: after ∧
    plugin.claims around = front ++ (d.table, d.key) :: rest ∧
    (before.flatMap (Plugin.claims around) ++ front).Nodup ∧
    (d.table, d.key) ∈ before.flatMap (Plugin.claims around) ++ front

theorem repeated?_claims_eq_some_iff {around : Surroundings} {plugins : List Plugin}
    {d : Duplicate} : repeated? [] (plugins.flatMap (Plugin.claims around)) = some d ↔
      FirstRepeated around plugins d := by
  rw [repeated?_eq_some_iff]
  constructor
  · rintro ⟨front, rest, hkeys, hnodup, hmem⟩
    obtain ⟨before, plugin, after, own, more, hplugins, hclaims, rfl⟩ := exists_of_flatMap_eq hkeys
    exact ⟨before, plugin, after, own, more, hplugins, hclaims, hnodup, hmem⟩
  · rintro ⟨before, plugin, after, front, rest, rfl, hclaims, hnodup, hmem⟩
    refine ⟨_, rest ++ after.flatMap (Plugin.claims around), ?_, hnodup, hmem⟩
    rw [List.flatMap_append, List.flatMap_cons, hclaims, List.append_assoc, List.append_assoc]
    rfl

/-! ## What builders do -/

namespace Builder

/-- Given keys to claim, a strict builder fails at the first that is repeated.  If there is none
it does what a lenient one does, and the keys have been claimed. -/
structure Follows (b : Builder) (keys : List (Table × Text))
    (strict lenient : Except Duplicate Builder) : Prop where
  repeated : ∀ d, repeated? b.claimed keys = some d → strict = .error d
  distinct : repeated? b.claimed keys = none → ∃ b', strict = .ok b' ∧ lenient = .ok b' ∧
    b'.claimed = keys.reverse ++ b.claimed

namespace Follows

variable {b : Builder} {keys more : List (Table × Text)}
  {strict lenient : Except Duplicate Builder}

/-- Something that claims nothing does not fail. -/
theorem ok {b' : Builder} (h : b'.claimed = b.claimed) : b.Follows [] (.ok b') (.ok b') where
  repeated _ h := absurd h (Option.some_ne_none _).symm
  distinct _ := ⟨b', rfl, rfl, h⟩

/-- One goes on with more keys to claim. -/
theorem bind (h : b.Follows keys strict lenient) {f g : Builder → Except Duplicate Builder}
    (hfg : ∀ b' : Builder, b'.Follows more (f b') (g b')) :
    b.Follows (keys ++ more) (strict >>= f) (lenient >>= g) where
  repeated d hd := by
    rw [repeated?_append] at hd
    cases hkeys : repeated? b.claimed keys with
    | some d' =>
      rw [hkeys, Option.some_or] at hd
      cases hd
      rw [h.repeated d hkeys]
      rfl
    | none =>
      obtain ⟨b', hstrict, -, hclaimed⟩ := h.distinct hkeys
      rw [hkeys, Option.none_or, ← hclaimed] at hd
      rw [hstrict]
      exact (hfg b').repeated d hd
  distinct hnone := by
    rw [repeated?_append, Option.or_eq_none_iff] at hnone
    obtain ⟨b', hstrict, hlenient, hclaimed⟩ := h.distinct hnone.1
    rw [← hclaimed] at hnone
    obtain ⟨b'', hf, hg, hmore⟩ := (hfg b').distinct hnone.2
    rw [hstrict, hlenient]
    exact ⟨b'', hf, hg, by rw [hmore, hclaimed, List.reverse_append, List.append_assoc]⟩

/-- What is done besides claims nothing. -/
theorem map (h : b.Follows keys strict lenient) {f : Builder → Builder}
    (hf : ∀ b', (f b').claimed = b'.claimed) :
    b.Follows keys (strict >>= fun b' => pure (f b')) (lenient >>= fun b' => pure (f b')) :=
  List.append_nil keys ▸ h.bind fun b' => .ok (hf b')

end Follows

theorem follows_claim (b : Builder) (table : Table) (key : Text) :
    b.Follows [(table, key)] (b.claim true table key) (b.claim false table key) where
  repeated d hd := by
    by_cases hmem : (table, key) ∈ b.claimed
    · rw [repeated?_cons_of_mem hmem] at hd
      cases hd
      rw [claim, if_pos hmem]
      rfl
    · rw [repeated?_cons_of_not_mem hmem] at hd
      exact absurd hd (Option.some_ne_none d).symm
  distinct hnone := by
    by_cases hmem : (table, key) ∈ b.claimed
    · rw [repeated?_cons_of_mem hmem] at hnone
      exact absurd hnone (Option.some_ne_none _)
    · rw [claim, claim, if_neg hmem, if_neg hmem]
      exact ⟨_, rfl, rfl, rfl⟩

theorem follows_claimClasses : ∀ (found : List Selector.ClassBody) (b : Builder),
    b.Follows (found.map fun c => (.utility, c.key)) (b.claimClasses true found)
      (b.claimClasses false found)
  | [], _ => .ok rfl
  | c :: rest, b => (b.follows_claim .utility c.key).bind (follows_claimClasses rest)

theorem claimed_foldl_pushUtility {plugin : Text} {flags : Flags} (entries : List (Text × StyleTree))
    (b : Builder) :
    (entries.foldl (fun b entry => b.pushUtility entry.1 ⟨plugin, .fixed entry.2 flags⟩)
      b).claimed = b.claimed := by
  induction entries generalizing b with
  | nil => rfl
  | cons entry rest ih => exact ih _

theorem follows_register (plugin : Text) (r : Registration) (b : Builder) :
    b.Follows r.claims (b.register true plugin r) (b.register false plugin r) := by
  cases r with
  | base tree => exact .ok rfl
  | classes tree flags =>
    exact (b.follows_claimClasses _).map fun b' => claimed_foldl_pushUtility _ b'
  | utility name u => exact .ok rfl
  | variant name rule post =>
    cases rule with
    | fixed templates => exact (b.follows_claim .variant name).map fun _ => rfl
    | lookup v => exact .ok rfl

theorem follows_registerAll (plugin : Text) : ∀ (rs : List Registration) (b : Builder),
    b.Follows (rs.flatMap Registration.claims) (b.registerAll true plugin rs)
      (b.registerAll false plugin rs)
  | [], _ => .ok rfl
  | r :: rest, b => (b.follows_register plugin r).bind (follows_registerAll plugin rest)

theorem follows_run (around : Surroundings) : ∀ (plugins : List Plugin) (b : Builder),
    b.Follows (plugins.flatMap (Plugin.claims around)) (b.run true around plugins)
      (b.run false around plugins)
  | [], _ => .ok rfl
  | p :: rest, b =>
    (b.follows_registerAll p.name (p.register around)).bind (follows_run around rest)

end Builder

/-- A strict registry fails at the first key that is claimed a second time. -/
theorem build_of_repeated {around : Surroundings} {plugins : List Plugin} {d : Duplicate}
    (h : FirstRepeated around plugins d) : build true around plugins = .error d := by
  rw [build, (Builder.follows_run around plugins .start).repeated d
    (repeated?_claims_eq_some_iff.mpr h)]
  rfl

/-- If no key is claimed twice, a strict registry is the lenient one. -/
theorem build_of_nodup {around : Surroundings} {plugins : List Plugin}
    (h : (plugins.flatMap (Plugin.claims around)).Nodup) :
    build true around plugins = build false around plugins ∧
      ∃ registry, build true around plugins = .ok registry := by
  obtain ⟨b, hstrict, hlenient, -⟩ := (Builder.follows_run around plugins .start).distinct
    (repeated?_eq_none_iff.mpr ⟨h, fun _ _ => List.not_mem_nil⟩)
  rw [build, build, hstrict, hlenient]
  exact ⟨rfl, b.registry, rfl⟩

end Registry
end UtilityCss
