import UtilityCss.Proofs.Json.Merge

/-!
# The rules of merging

Merging is documented by rules: objects merge key by key, lists of objects are put together, an
absent value changes nothing, and anything else is replaced.  `MergesTo` states the rules without an
algorithm, for any notion of which lists are put together, so that they can be compared with what
merging does.

They determine the outcome.  Merging follows them if a list grows exactly when its first item is an
object, whatever its other items and those of the other list are.  With the documented notion, by
which both lists have to consist of objects, it follows them exactly where keys never lead to a
list that starts with an object in the one value and to a list in the other without all items of
the two being objects.
-/

namespace UtilityCss
namespace Data

/-- The rules of merging: what laying a value over another comes to.  `grows` says which lists are
put together. -/
inductive MergesTo (grows : List Data → List Data → Prop) : Data → Data → Data → Prop where
  /-- The keys of the first object stay in their order, with the new ones of the second behind
  them, and what stands under a key of both is merged. -/
  | objects {base incoming result : List (Text × Data)} :
    Keyed.keys result =
      Keyed.keys base ++ (Keyed.keys incoming).filter (· ∉ Keyed.keys base) →
    (∀ key, incoming.lookup key = none → result.lookup key = base.lookup key) →
    (∀ key, base.lookup key = none → result.lookup key = incoming.lookup key) →
    (∀ key previous value merged, base.lookup key = some previous →
      incoming.lookup key = some value → result.lookup key = some merged →
      MergesTo grows previous value merged) →
    MergesTo grows (.object base) (.object incoming) (.object result)
  | lists {base incoming : List Data} : grows base incoming →
    MergesTo grows (.list base) (.list incoming) (.list (base ++ incoming))
  | keeps (base : Data) : MergesTo grows base .null base
  | replaces {base incoming : Data} : incoming ≠ .null → ¬ (base.isObject ∧ incoming.isObject) →
    (∀ items more, base = .list items → incoming = .list more → ¬ grows items more) →
    MergesTo grows base incoming incoming

/-- Both lists consist of objects. -/
def OnlyObjects (base incoming : List Data) : Prop := ∀ item ∈ base ++ incoming, item.isObject

instance (base incoming : List Data) : Decidable (OnlyObjects base incoming) :=
  inferInstanceAs (Decidable (∀ item ∈ base ++ incoming, item.isObject))

variable {grows : List Data → List Data → Prop} {a b result result' : Data} {key : Text}

/-! ## What the rules say -/

namespace MergesTo

theorem of_null (h : MergesTo grows a .null result) : result = a := by
  cases h with
  | keeps => rfl
  | replaces hnull => exact absurd rfl hnull

theorem of_objects {base incoming : List (Text × Data)}
    (h : MergesTo grows (.object base) (.object incoming) result) :
    ∃ members, result = .object members ∧
      Keyed.keys members =
        Keyed.keys base ++ (Keyed.keys incoming).filter (· ∉ Keyed.keys base) ∧
      (∀ key, incoming.lookup key = none → members.lookup key = base.lookup key) ∧
      (∀ key, base.lookup key = none → members.lookup key = incoming.lookup key) ∧
      ∀ key previous value, base.lookup key = some previous → incoming.lookup key = some value →
        ∃ merged, members.lookup key = some merged ∧ MergesTo grows previous value merged := by
  cases h with
  | replaces _ hobjects => exact absurd ⟨rfl, rfl⟩ hobjects
  | @objects _ _ members hkeys hbase hnew hboth =>
    refine ⟨members, rfl, hkeys, hbase, hnew, fun key previous value hprevious hvalue => ?_⟩
    obtain ⟨merged, hmerged⟩ : ∃ merged, members.lookup key = some merged := by
      refine Option.ne_none_iff_exists'.mp fun hnone => ?_
      rw [Keyed.lookup_eq_none_iff_not_mem_keys, hkeys] at hnone
      exact hnone (List.mem_append_left _ (Keyed.mem_keys_of_lookup hprevious))
    exact ⟨merged, hmerged, hboth key previous value merged hprevious hvalue hmerged⟩

theorem of_lists {base incoming : List Data}
    (h : MergesTo grows (.list base) (.list incoming) result) :
    grows base incoming ∧ result = .list (base ++ incoming) ∨
      ¬ grows base incoming ∧ result = .list incoming := by
  cases h with
  | lists hgrows => exact .inl ⟨hgrows, rfl⟩
  | replaces _ _ hlists => exact .inr ⟨hlists _ _ rfl rfl, rfl⟩

theorem of_other (hnull : b ≠ .null) (hobjects : ¬ (a.isObject ∧ b.isObject))
    (hlists : ¬ (a.isList ∧ b.isList)) (h : MergesTo grows a b result) : result = b := by
  cases h with
  | objects => exact absurd ⟨rfl, rfl⟩ hobjects
  | lists => exact absurd ⟨rfl, rfl⟩ hlists
  | keeps => exact absurd rfl hnull
  | replaces => rfl

end MergesTo

/-- Either there is nothing to lay over, or two objects meet, or two lists, or none of these. -/
theorem meet_cases (a b : Data) :
    b = .null ∨ (∃ base incoming, a = .object base ∧ b = .object incoming) ∨
      (∃ base incoming, a = .list base ∧ b = .list incoming) ∨
      b ≠ .null ∧ ¬ (a.isObject ∧ b.isObject) ∧ ¬ (a.isList ∧ b.isList) := by
  cases a <;> cases b <;> simp [isObject, isList]

/-- The rules determine the outcome. -/
theorem MergesTo.unique (ha : a.WellKeyed) (hb : b.WellKeyed) (h : MergesTo grows a b result)
    (h' : MergesTo grows a b result') : result' = result := by
  induction b using memberwise generalizing a result result' with
  | h b ih =>
    obtain rfl | ⟨base, incoming, rfl, rfl⟩ | ⟨base, incoming, rfl, rfl⟩ |
      ⟨hnull, hobjects, hlists⟩ := meet_cases a b
    · rw [h.of_null, h'.of_null]
    · obtain ⟨members, rfl, hkeys, hbase, hnew, hboth⟩ := h.of_objects
      obtain ⟨members', rfl, hkeys', hbase', hnew', hboth'⟩ := h'.of_objects
      have hdistinct : Keyed.Distinct members := by
        rw [Keyed.Distinct, hkeys]
        exact Keyed.nodup_keys_append ha.distinct hb.distinct
      refine congrArg Data.object
        (Keyed.eq_of_keys_of_lookup hdistinct (hkeys'.trans hkeys.symm) fun key => ?_)
      cases hprevious : base.lookup key with
      | none => rw [hnew key hprevious, hnew' key hprevious]
      | some previous =>
        cases hvalue : incoming.lookup key with
        | none => rw [hbase key hvalue, hbase' key hvalue]
        | some value =>
          obtain ⟨merged, hmerged, hrules⟩ := hboth key previous value hprevious hvalue
          obtain ⟨merged', hmerged', hrules'⟩ := hboth' key previous value hprevious hvalue
          rw [hmerged, hmerged', ih key value hvalue (ha.member hprevious) (hb.member hvalue)
            hrules hrules']
    · obtain ⟨hgrows, rfl⟩ | ⟨hgrows, rfl⟩ := h.of_lists <;>
        obtain ⟨hgrows', rfl⟩ | ⟨hgrows', rfl⟩ := h'.of_lists
      · rfl
      · exact absurd hgrows hgrows'
      · exact absurd hgrows' hgrows
      · rfl
    · rw [h.of_other hnull hobjects hlists, h'.of_other hnull hobjects hlists]

/-! ## What merging does -/

/-- Two lists merge by the rules if these say that they grow exactly if the first item of the first
one is an object, or if the first one is empty. -/
theorem mergesTo_merge_list_iff {base incoming : List Data} :
    MergesTo grows (.list base) (.list incoming) (merge (.list base) (.list incoming)) ↔
      base = [] ∨ (grows base incoming ↔ StartsWithObject base) := by
  rw [merge_list]
  constructor
  · intro h
    obtain ⟨hgrows, heq⟩ | ⟨hgrows, heq⟩ := h.of_lists
    · by_cases hstarts : StartsWithObject base
      · exact .inr (iff_of_true hgrows hstarts)
      · rw [if_neg hstarts, Data.list.injEq] at heq
        exact .inl (List.self_eq_append_left.mp heq)
    · by_cases hstarts : StartsWithObject base
      · rw [if_pos hstarts, Data.list.injEq] at heq
        exact .inl (List.append_left_eq_self.mp heq)
      · exact .inr (iff_of_false hgrows hstarts)
  · intro h
    by_cases hgrows : grows base incoming
    · have hlists : MergesTo grows (.list base) (.list incoming) _ := .lists hgrows
      obtain rfl | hiff := h
      · exact hlists
      · rwa [if_pos (hiff.mp hgrows)]
    · have hreplaces : MergesTo grows (.list base) (.list incoming) (.list incoming) := by
        refine .replaces nofun (fun hobjects => Bool.noConfusion hobjects.1) ?_
        intro items more hitems hmore
        rwa [← Data.list.inj hitems, ← Data.list.inj hmore]
      obtain rfl | hiff := h
      · exact hreplaces
      · rwa [if_neg fun hstarts => hgrows (hiff.mpr hstarts)]

/-- What stands under a key of two objects that merge by the rules does so too. -/
theorem MergesTo.member {value previous : Data} (hb : b.WellKeyed)
    (h : MergesTo grows a b (merge a b)) (hprevious : a.member? key = some previous)
    (hvalue : b.member? key = some value) : MergesTo grows previous value (merge previous value) := by
  rw [eq_object_of_member? hprevious, eq_object_of_member? hvalue, merge_object] at h
  obtain ⟨members, hmembers, -, -, -, hboth⟩ := h.of_objects
  obtain rfl := Data.object.inj hmembers
  obtain ⟨merged, hmerged, hrules⟩ := hboth key previous value hprevious hvalue
  rw [lookup_overlayMembers_of_both hb.distinct hprevious hvalue] at hmerged
  rw [Option.some.inj hmerged]
  exact hrules

/-- Two objects merge by the rules if all does that stands under a key of both. -/
theorem mergesTo_merge_object {base incoming : List (Text × Data)}
    (hdistinct : Keyed.Distinct incoming)
    (hboth : ∀ key previous value, base.lookup key = some previous →
      incoming.lookup key = some value → MergesTo grows previous value (merge previous value)) :
    MergesTo grows (.object base) (.object incoming) (merge (.object base) (.object incoming)) := by
  rw [merge_object]
  refine .objects (keys_overlayMembers hdistinct base) ?_ ?_ ?_
  · intro key hnone
    rw [lookup_overlayMembers hdistinct, hnone, Option.merge_none_right]
  · intro key hnone
    rw [lookup_overlayMembers hdistinct, hnone, Option.merge_none_left]
  · intro key previous value merged hprevious hvalue hmerged
    rw [lookup_overlayMembers_of_both hdistinct hprevious hvalue] at hmerged
    rw [← Option.some.inj hmerged]
    exact hboth key previous value hprevious hvalue

/-- Merging follows the rules exactly where keys lead to no two lists of which the rules say
something else than that the first item of the first one decides. -/
theorem mergesTo_merge_iff (ha : a.WellKeyed) (hb : b.WellKeyed) :
    MergesTo grows a b (merge a b) ↔
      ∀ path base incoming, a.at? path = some (.list base) → b.at? path = some (.list incoming) →
        base = [] ∨ (grows base incoming ↔ StartsWithObject base) := by
  constructor
  · intro h path
    induction path generalizing a b with
    | nil =>
      intro base incoming hbase hincoming
      obtain rfl := Option.some.inj hbase
      obtain rfl := Option.some.inj hincoming
      exact mergesTo_merge_list_iff.mp h
    | cons key path ih =>
      intro base incoming hbase hincoming
      obtain ⟨previous, hprevious, hbase⟩ := Option.bind_eq_some_iff.mp hbase
      obtain ⟨value, hvalue, hincoming⟩ := Option.bind_eq_some_iff.mp hincoming
      exact ih (ha.member hprevious) (hb.member hvalue) (h.member hb hprevious hvalue) base
        incoming hbase hincoming
  · intro h
    induction b using memberwise generalizing a with
    | h b ih =>
      obtain rfl | ⟨base, incoming, rfl, rfl⟩ | ⟨base, incoming, rfl, rfl⟩ |
        ⟨hnull, hobjects, hlists⟩ := meet_cases a b
      · rw [merge_null]
        exact .keeps a
      · refine mergesTo_merge_object hb.distinct fun key previous value hprevious hvalue => ?_
        refine ih key value hvalue (ha.member hprevious) (hb.member hvalue) ?_
        exact fun path items more hitems hmore =>
          h (key :: path) items more (at?_cons hprevious hitems) (at?_cons hvalue hmore)
      · exact mergesTo_merge_list_iff.mpr (h [] base incoming rfl rfl)
      · rw [merge_eq_right hnull hobjects hlists]
        refine .replaces hnull hobjects fun items more hbase hincoming => ?_
        exact absurd ⟨by rw [hbase]; rfl, by rw [hincoming]; rfl⟩ hlists

/-- Where merging follows the rules it is the only outcome that does. -/
theorem mergesTo_iff_of_merge (ha : a.WellKeyed) (hb : b.WellKeyed)
    (h : MergesTo grows a b (merge a b)) : MergesTo grows a b result ↔ result = merge a b :=
  ⟨fun hresult => h.unique ha hb hresult, fun hresult => hresult ▸ h⟩

/-- Merging follows the rules with the first item of the first list for the sign that the lists are
put together.  It follows them with both lists consisting of objects exactly if keys never lead to
two lists of which the first one starts with an object and one of which has an item that is none. -/
theorem mergesTo_iff_eq_merge (ha : a.WellKeyed) (hb : b.WellKeyed) :
    (∀ result, MergesTo (fun base _ => StartsWithObject base) a b result ↔
      result = merge a b) ∧
    ((∀ result, MergesTo OnlyObjects a b result ↔ result = merge a b) ↔
      ∀ path base incoming, a.at? path = some (.list base) →
        b.at? path = some (.list incoming) → StartsWithObject base →
        OnlyObjects base incoming) := by
  constructor
  · have hfirst : MergesTo (fun base _ => StartsWithObject base) a b (merge a b) :=
      (mergesTo_merge_iff ha hb).mpr fun _ _ _ _ _ => .inr Iff.rfl
    exact fun result => mergesTo_iff_of_merge ha hb hfirst
  constructor
  · intro h path base incoming hbase hincoming hstarts
    have honly := (mergesTo_merge_iff ha hb).mp ((h _).mpr rfl) path base incoming hbase hincoming
    refine (honly.resolve_left ?_).mpr hstarts
    rintro rfl
    exact absurd hstarts (by decide)
  · intro h
    have honly : MergesTo OnlyObjects a b (merge a b) := by
      refine (mergesTo_merge_iff ha hb).mpr fun path base incoming hbase hincoming => ?_
      cases base with
      | nil => exact .inl rfl
      | cons first rest =>
        refine .inr ⟨fun hitems => ?_, h path _ incoming hbase hincoming⟩
        exact ⟨first, rfl, hitems first (by simp)⟩
    exact fun result => mergesTo_iff_of_merge ha hb honly

/-- Objects with lists of objects under one key, and with an absent value and a list of texts over
other things. -/
theorem mergesTo_iff_eq_merge_sizes :
    let size (value : Data) : Data := .object [("size", value)]
    let a : Data := .object [("faces", .list [size .null]), ("name", .text "a"),
      ("tags", .list [.text "x", size .null])]
    let b : Data := .object [("tags", .list [.text "y"]), ("name", .null),
      ("faces", .list [size (.bool true)]), ("new", .null)]
    let result : Data := .object [("faces", .list [size .null, size (.bool true)]),
      ("name", .text "a"), ("tags", .list [.text "y"]), ("new", .null)]
    a.WellKeyed ∧ b.WellKeyed ∧ MergesTo OnlyObjects a b result := by
  intro size a b result
  have hflat : Flat a := by decide
  have hflat' : Flat b := by decide
  have ha : a.WellKeyed := hflat.wellKeyed (by decide)
  have hb : b.WellKeyed := hflat'.wellKeyed (by decide)
  refine ⟨ha, hb, ((mergesTo_iff_eq_merge ha hb).2.mpr ?_ result).mpr (by decide)⟩
  rintro (_ | ⟨key, path⟩) base incoming hbase hincoming hstarts
  · exact nomatch (Option.some.inj hbase : Data.object _ = .list base)
  obtain ⟨rfl, hmember⟩ := hflat.of_at?_cons hbase
  obtain ⟨-, hmember'⟩ := hflat'.of_at?_cons hincoming
  have hmem : (key, Data.list base) ∈ a.members := Keyed.mem_of_lookup hmember
  have hentries : key = "faces" ∧ base = [size .null] ∨
      key = "tags" ∧ base = [.text "x", size .null] := by
    simpa [a, members] using hmem
  obtain ⟨rfl, rfl⟩ | ⟨rfl, rfl⟩ := hentries
  · obtain rfl := Data.list.inj (Option.some.inj hmember')
    decide
  · exact absurd hstarts (by decide)

/-- A list of texts over a list of objects is put behind it, although only lists of objects should
be put together, and so is a list of objects over one with a text among its items. -/
theorem mergesTo_iff_eq_merge_plain :
    let face : Data := .object [("size", .text "1")]
    let appended (base incoming : List Data) : Prop :=
      merge (.list base) (.list incoming) = .list (base ++ incoming) ∧
        MergesTo OnlyObjects (.list base) (.list incoming) (.list incoming) ∧
        ¬ MergesTo OnlyObjects (.list base) (.list incoming) (merge (.list base) (.list incoming))
    appended [face] [.text "x"] ∧ appended [face, .text "x"] [face] := by
  intro face appended
  have happended : ∀ first rest incoming, first.isObject = true →
      ¬ OnlyObjects (first :: rest) incoming → appended (first :: rest) incoming := by
    intro first rest incoming hfirst honly
    have hmerge : merge (.list (first :: rest)) (.list incoming) =
        .list (first :: rest ++ incoming) := by
      rw [merge_list, if_pos ⟨first, rfl, hfirst⟩]
    refine ⟨hmerge, .replaces nofun (fun h => Bool.noConfusion h.1) ?_, fun h => ?_⟩
    · intro items more hitems hmore
      rwa [← Data.list.inj hitems, ← Data.list.inj hmore]
    · rw [hmerge] at h
      obtain ⟨hitems, -⟩ | ⟨-, heq⟩ := h.of_lists
      · exact honly hitems
      · exact absurd (List.append_left_eq_self.mp (Data.list.inj heq)) (List.cons_ne_nil _ _)
  exact ⟨happended _ _ _ rfl (by decide), happended _ _ _ rfl (by decide)⟩

end Data
end UtilityCss
