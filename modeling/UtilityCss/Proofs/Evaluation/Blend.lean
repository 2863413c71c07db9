import UtilityCss.Proofs.Evaluation.Expansion
import UtilityCss.Proofs.Style.Commutation

/-!
# Expanding merged trees

Style trees are merged as they were written, and directives are expanded after that.  A directive
stands under a key like anything else.  So the one that is merged in under the key of another one
takes its place, and what is merged in under a key that is there is expanded where the key is, and
not after what stands behind it.

Trees blend if this makes no difference.  Then merging them and expanding the outcome is
expanding them and merging the outcomes.
-/

namespace UtilityCss

open StyleTree (WellKeyed WellKeyedValue)

namespace Directive

variable (env : Environment) (apply : Text → Report StyleTree)

/-! ## Trees that blend -/

/-- The entry adds nothing under the keys under which the entries add something. -/
def Clear (key : Text) (value : StyleValue) (entries : List (Text × StyleValue)) : Prop :=
  ∀ e ∈ entries, ∀ k ∈ Keyed.keys (added env apply key value),
    k ∉ Keyed.keys (added env apply e.1 e.2)

/-- The variant of a screen may be put around the parts of what is nested in it one after the
other, and the second part adds only where the first one did. -/
structure Splits (name : Text) (incoming base : StyleTree) : Prop where
  screened_merge : screened env name (StyleTree.merge base incoming) =
    StyleTree.merge (screened env name base) (screened env name incoming)
  keys : ∀ k ∈ Keyed.keys (screened env name incoming), k ∈ Keyed.keys (screened env name base)

mutual

/-- Laying entries over a tree moves those whose key is there to where the key is.  There they
blend in if they do so with the value under the key, if nothing behind it adds under the keys that
they add to, and if nothing in front of it does or they agree with that value on where something
is nested. -/
def EntriesBlend : List (Text × StyleValue) → StyleTree → Prop
  | [], _ => True
  | (key, value) :: rest, base =>
    (∀ previous, base.lookup key = some previous →
      ValuesBlend key value previous ∧ Clear env apply key value (Keyed.behind key base) ∧
        (StyleTree.Agree (added env apply key value) (added env apply key previous) ∨
          Clear env apply key value (Keyed.before key base))) ∧
      EntriesBlend rest (Keyed.put key (StyleTree.laidOver value (base.lookup key)) base)

/-- Values under one key blend if they apply the same class list, or if neither applies any.  In
that case the entries of nested trees have to blend as well, and the variant of a screen has to
split around them; and a tree that a declaration takes the place of holds no torn name, and does
not stand under the key of a screen. -/
def ValuesBlend (key : Text) : StyleValue → StyleValue → Prop
  | .tree incoming, .tree base => applied? key (.tree incoming) = none →
      (additions env apply incoming).Pairwise StyleTree.Agree ∧ EntriesBlend incoming base ∧
        ∀ name, screen? key = some name →
          Splits env name (expanded env apply incoming) (expanded env apply base)
  | value, previous => applied? key value = applied? key previous ∧
      (applied? key value = none → tears env apply key previous = false ∧
        ((screen? key).isSome = true → value.isTree = previous.isTree))

end

/-- The tree may be laid over the other one before or after the directives of both are
expanded: its entries blend in, and agree among each other on where something is nested. -/
structure Blends (incoming base : StyleTree) : Prop where
  agree : (additions env apply incoming).Pairwise StyleTree.Agree
  entries : EntriesBlend env apply incoming base

/-- Each of the trees may be laid over what was merged before it. -/
def AllBlend : StyleTree → List StyleTree → Prop
  | _, [] => True
  | base, tree :: rest => Blends env apply tree base ∧ AllBlend (StyleTree.merge base tree) rest

/-! ## Laying values over each other -/

/-- One laid over the other, the values add what they add one after the other, and the one above
adds only where the one below did. -/
structure AddsOver (key : Text) (value previous : StyleValue) : Prop where
  added_overlay : added env apply key (StyleTree.overlayValue value previous) =
    StyleTree.merge (added env apply key previous) (added env apply key value)
  keys : ∀ k ∈ Keyed.keys (added env apply key value), k ∈ Keyed.keys (added env apply key previous)

variable {env apply} {key : Text}

/-- Whether a nested tree is an application can be told from its key. -/
theorem applied?_tree (key : Text) (s t : StyleTree) :
    applied? key (.tree s) = applied? key (.tree t) := by
  unfold applied?
  rfl

section

variable (hregistry : env.registry.WellKeyed) (happly : ∀ t, WellKeyed (apply t).value)
include hregistry happly

omit hregistry in
/-- Values that apply the same class list add the same. -/
theorem AddsOver.of_applied {value previous : StyleValue} {classes : Text}
    (hvalue : applied? key value = some classes) (hprevious : applied? key previous = some classes)
    (hover : applied? key (StyleTree.overlayValue value previous) = some classes) :
    AddsOver env apply key value previous := by
  have hadded : ∀ {v : StyleValue}, applied? key v = some classes →
      added env apply key v = (apply classes).value := by
    intro v hv
    rw [added, expandEntry_of_applied hv]
    exact StyleTree.nil_merge (happly classes).distinct
  constructor
  · rw [hadded hvalue, hadded hprevious, hadded hover, StyleTree.merge_self (happly classes)]
  · rw [hadded hvalue, hadded hprevious]
    exact fun _ hk => hk

/-- What stands under one key, and is no directive, is laid over what stands there. -/
theorem AddsOver.of_plain {value previous : StyleValue} (hvalue : WellKeyedValue value)
    (hprevious : WellKeyedValue previous) (happlied : applied? key value = none)
    (happlied' : applied? key previous = none)
    (hover : applied? key (StyleTree.overlayValue value previous) = none)
    (hscreen : screen? key = none)
    (hrendered : rendered env apply (StyleTree.overlayValue value previous) =
      StyleTree.overlayValue (rendered env apply value) (rendered env apply previous)) :
    AddsOver env apply key value previous := by
  have hoverKeyed := StyleTree.wellKeyed_overlayValue hvalue hprevious
  constructor
  · rw [added_plain hregistry happly hvalue happlied hscreen,
      added_plain hregistry happly hprevious happlied' hscreen,
      added_plain hregistry happly hoverKeyed hover hscreen, hrendered]
    show _ = StyleTree.overlay [(key, _)] [(key, _)]
    rw [StyleTree.overlay_cons_eq, List.lookup_cons_self, Keyed.put, if_pos rfl]
    rfl
  · rw [added_plain hregistry happly hvalue happlied hscreen,
      added_plain hregistry happly hprevious happlied' hscreen]
    exact fun _ hk => hk

/-- Where one of the values is no nested tree the one above takes the place of the one below. -/
theorem AddsOver.of_same {value previous : StyleValue} (hvalue : WellKeyedValue value)
    (hprevious : WellKeyedValue previous) (hdeclared : value.isTree = false ∨ previous.isTree = false)
    (hblend : applied? key value = applied? key previous ∧
      (applied? key value = none → tears env apply key previous = false ∧
        ((screen? key).isSome = true → value.isTree = previous.isTree))) :
    AddsOver env apply key value previous := by
  obtain ⟨happlied, hkind⟩ := hblend
  have hover := StyleValue.overlayValue_eq_left hdeclared
  cases hclasses : applied? key value with
  | some classes =>
    exact .of_applied happly hclasses (happlied.symm.trans hclasses) (hover.symm ▸ hclasses)
  | none =>
    have hclasses' := happlied.symm.trans hclasses
    cases hscreen : screen? key with
    | none =>
      refine .of_plain hregistry happly hvalue hprevious hclasses hclasses' (hover.symm ▸ hclasses)
        hscreen ?_
      rw [hover, StyleValue.overlayValue_eq_left]
      rwa [isTree_rendered, isTree_rendered]
    | some name =>
      have hsame := (hkind hclasses).2 (by rw [hscreen]; rfl)
      have hadded : ∀ {v : StyleValue}, v.isTree = false → applied? key v = none →
          added env apply key v = [] := by
        intro v hv hnone
        rw [added_declaration hnone hv, hscreen]
        rfl
      have hvalueNil := hadded (hdeclared.elim id hsame.trans) hclasses
      have hpreviousNil := hadded (hdeclared.elim hsame.symm.trans id) hclasses'
      constructor
      · rw [hover, hvalueNil, hpreviousNil]
        rfl
      · rw [hvalueNil]
        exact fun _ hk => absurd hk List.not_mem_nil

/-- Nested trees are laid over each other under their key, or in the variant of a screen. -/
theorem AddsOver.of_trees {incoming base : StyleTree} (hincoming : WellKeyed incoming)
    (hbase : WellKeyed base) (happlied : applied? key (.tree incoming) = none)
    (hexpanded : expanded env apply (StyleTree.overlay incoming base) =
      StyleTree.merge (expanded env apply base) (expanded env apply incoming))
    (hsplits : ∀ name, screen? key = some name →
      Splits env name (expanded env apply incoming) (expanded env apply base)) :
    AddsOver env apply key (.tree incoming) (.tree base) := by
  have hnone : ∀ t : StyleTree, applied? key (.tree t) = none := fun t =>
    (applied?_tree key t incoming).trans happlied
  cases hname : screen? key with
  | none =>
    refine .of_plain hregistry happly hincoming hbase happlied (hnone _) (hnone _) hname ?_
    show StyleValue.tree (expanded env apply (StyleTree.overlay incoming base)) = _
    rw [hexpanded]
    rfl
  | some name =>
    have hadded : ∀ {t : StyleTree}, WellKeyed t →
        added env apply key (.tree t) = screened env name (expanded env apply t) := by
      intro t ht
      rw [added_tree hregistry happly ht (hnone t), hname]
    have hscreen := hsplits name hname
    constructor
    · rw [StyleTree.overlayValue, hadded hincoming, hadded hbase,
        hadded (StyleTree.wellKeyed_overlay hincoming hbase), hexpanded]
      exact hscreen.screened_merge
    · rw [hadded hincoming, hadded hbase]
      exact hscreen.keys

/-! ## Laying trees over each other -/

/-- An entry that adds over the one under its key may be laid over it in place or be added at the
end, if it is clear of what stands around that. -/
theorem foldl_additions_put {base : StyleTree} (hbase : WellKeyed base) {value previous : StyleValue}
    (hvalue : WellKeyedValue value) (hprevious : base.lookup key = some previous)
    (hover : AddsOver env apply key value previous)
    (hbehind : Clear env apply key value (Keyed.behind key base))
    (hbefore : StyleTree.Agree (added env apply key value) (added env apply key previous) ∨
      Clear env apply key value (Keyed.before key base)) :
    (additions env apply (Keyed.put key (StyleTree.overlayValue value previous) base)).foldl
        StyleTree.merge [] =
      StyleTree.merge ((additions env apply base).foldl StyleTree.merge [])
        (added env apply key value) := by
  obtain ⟨hbaseEq, hput⟩ := Keyed.put_eq_before_append_behind hprevious
  let front := (additions env apply (Keyed.before key base)).foldl StyleTree.merge []
  have happend : ∀ v, (additions env apply
      (Keyed.before key base ++ (key, v) :: Keyed.behind key base)).foldl StyleTree.merge [] =
        (additions env apply (Keyed.behind key base)).foldl StyleTree.merge
          (StyleTree.merge front (added env apply key v)) := by
    intro v
    rw [additions_append, List.foldl_append]
    rfl
  have hvalueKeyed := wellKeyed_added hregistry happly key hvalue
  have hpreviousKeyed := wellKeyed_added hregistry happly key (hbase.value hprevious)
  have htwice : StyleTree.merge front (added env apply key (StyleTree.overlayValue value previous)) =
      StyleTree.merge (StyleTree.merge front (added env apply key previous))
        (added env apply key value) := by
    rw [hover.added_overlay]
    rcases hbefore with hagree | hclear
    · exact (StyleTree.overlay_overlay _ hvalueKeyed hpreviousKeyed hagree).symm
    · refine (StyleTree.merge_assoc_of_fresh hpreviousKeyed.distinct hover.keys ?_).symm
      intro k hk hfront
      obtain ⟨t, ht, hkt⟩ := StyleTree.exists_mem_of_mem_keys_foldl_merge hfront
      obtain ⟨e, he, rfl⟩ := List.mem_map.mp ht
      exact hclear e he k hk hkt
  rw [hput, happend, htwice]
  conv_rhs => rw [hbaseEq, happend]
  refine StyleTree.foldl_merge_comm ?_ ?_ ?_
  · intro t ht
    obtain ⟨e, he, rfl⟩ := List.mem_map.mp ht
    refine (wellKeyed_added hregistry happly e.1
      ((StyleTree.wellKeyed_iff.mp hbase).2 e ?_)).distinct
    rw [hbaseEq]
    exact List.mem_append_right _ (List.mem_cons_of_mem _ he)
  · exact fun k hk => StyleTree.mem_keys_merge.mpr (Or.inr (hover.keys k hk))
  · intro t ht k hk
    obtain ⟨e, he, rfl⟩ := List.mem_map.mp ht
    exact hbehind e he k hk

end

mutual

/-- What the entries of a tree laid over another one add is what those of the one below add, and
then those of the one above. -/
theorem foldl_additions_overlay (hregistry : env.registry.WellKeyed)
    (happly : ∀ t, WellKeyed (apply t).value) : ∀ {incoming : List (Text × StyleValue)}
    {base : StyleTree}, WellKeyed incoming → WellKeyed base →
      EntriesBlend env apply incoming base →
        (additions env apply (StyleTree.overlay incoming base)).foldl StyleTree.merge [] =
          (additions env apply incoming).foldl StyleTree.merge
            ((additions env apply base).foldl StyleTree.merge [])
  | [], _, _, _, _ => rfl
  | (key, value) :: rest, base, ⟨_, hvalue, hrest⟩, hbase, hblend => by
    rw [EntriesBlend] at hblend
    obtain ⟨hhere, hblendRest⟩ := hblend
    have hlaid : WellKeyedValue (StyleTree.laidOver value (base.lookup key)) := by
      cases hprevious : base.lookup key with
      | none => exact hvalue
      | some previous => exact StyleTree.wellKeyed_overlayValue hvalue (hbase.value hprevious)
    have hstep : (additions env apply
        (Keyed.put key (StyleTree.laidOver value (base.lookup key)) base)).foldl StyleTree.merge [] =
          StyleTree.merge ((additions env apply base).foldl StyleTree.merge [])
            (added env apply key value) := by
      cases hprevious : base.lookup key with
      | none =>
        rw [Keyed.put_eq_append _ hprevious, additions_append, List.foldl_append]
        rfl
      | some previous =>
        obtain ⟨hvalues, hbehind, hbefore⟩ := hhere previous hprevious
        exact foldl_additions_put hregistry happly hbase hvalue hprevious
          (addsOver_of_blend hregistry happly key hvalue (hbase.value hprevious) hvalues)
          hbehind hbefore
    rw [StyleTree.overlay_cons_eq, foldl_additions_overlay hregistry happly hrest
      (hbase.put key hlaid) hblendRest, hstep]
    rfl

/-- Values that blend add one over the other. -/
theorem addsOver_of_blend (hregistry : env.registry.WellKeyed)
    (happly : ∀ t, WellKeyed (apply t).value) (key : Text) : ∀ {value previous : StyleValue},
    WellKeyedValue value → WellKeyedValue previous → ValuesBlend env apply key value previous →
      AddsOver env apply key value previous
  | .tree incoming, .tree base, hvalue, hprevious, hblend => by
    rw [ValuesBlend] at hblend
    cases happlied : applied? key (.tree incoming) with
    | some classes =>
      exact .of_applied happly happlied ((applied?_tree key _ _).trans happlied)
        ((applied?_tree key _ _).trans happlied)
    | none =>
      obtain ⟨hagree, hentries, hsplits⟩ := hblend happlied
      refine .of_trees hregistry happly hvalue hprevious happlied ?_ hsplits
      rw [expanded_eq hregistry happly (StyleTree.wellKeyed_overlay hvalue hprevious),
        foldl_additions_overlay hregistry happly hvalue hprevious hentries,
        ← expanded_eq hregistry happly hprevious, foldl_additions hregistry happly hvalue hagree]
  | .scalar _, _, hvalue, hprevious, hblend =>
    .of_same hregistry happly hvalue hprevious (Or.inl rfl) hblend
  | .list _, _, hvalue, hprevious, hblend =>
    .of_same hregistry happly hvalue hprevious (Or.inl rfl) hblend
  | .tree _, .scalar _, hvalue, hprevious, hblend =>
    .of_same hregistry happly hvalue hprevious (Or.inr rfl) hblend
  | .tree _, .list _, hvalue, hprevious, hblend =>
    .of_same hregistry happly hvalue hprevious (Or.inr rfl) hblend

end

/-! ## Torn names -/

/-- Where one of the values is no nested tree only the one above can be torn. -/
theorem tears_of_same {value previous : StyleValue}
    (hdeclared : value.isTree = false ∨ previous.isTree = false)
    (hblend : applied? key value = applied? key previous ∧
      (applied? key value = none → tears env apply key previous = false ∧
        ((screen? key).isSome = true → value.isTree = previous.isTree))) :
    tears env apply key (StyleTree.overlayValue value previous) =
      (tears env apply key previous || tears env apply key value) := by
  obtain ⟨happlied, hkind⟩ := hblend
  rw [StyleValue.overlayValue_eq_left hdeclared]
  cases hclasses : applied? key value with
  | some classes =>
    rw [tears_of_applied hclasses, tears_of_applied (happlied.symm.trans hclasses), Bool.or_self]
  | none => rw [(hkind hclasses).1, Bool.false_or]

mutual

theorem any_tears_overlay : ∀ {incoming : List (Text × StyleValue)} {base : StyleTree},
    EntriesBlend env apply incoming base →
      ((StyleTree.overlay incoming base).any fun e => tears env apply e.1 e.2) =
        ((base.any fun e => tears env apply e.1 e.2) ||
          incoming.any fun e => tears env apply e.1 e.2)
  | [], _, _ => (Bool.or_false _).symm
  | (key, value) :: rest, base, hblend => by
    rw [EntriesBlend] at hblend
    obtain ⟨hhere, hblendRest⟩ := hblend
    have hstep : ((Keyed.put key (StyleTree.laidOver value (base.lookup key)) base).any
        fun e => tears env apply e.1 e.2) =
          ((base.any fun e => tears env apply e.1 e.2) || tears env apply key value) := by
      cases hprevious : base.lookup key with
      | none =>
        rw [Keyed.put_eq_append _ hprevious, List.any_append, List.any_cons, List.any_nil,
          Bool.or_false]
        rfl
      | some previous =>
        obtain ⟨hbaseEq, hput⟩ := Keyed.put_eq_before_append_behind hprevious
        rw [hput, List.any_append, List.any_cons, StyleTree.laidOver,
          tears_overlayValue key (hhere previous hprevious).1]
        conv_rhs => rw [hbaseEq, List.any_append, List.any_cons]
        simp only [Bool.or_assoc, Bool.or_comm, Bool.or_left_comm]
    rw [StyleTree.overlay_cons_eq, any_tears_overlay hblendRest, hstep, List.any_cons,
      Bool.or_assoc]

theorem tears_overlayValue (key : Text) : ∀ {value previous : StyleValue},
    ValuesBlend env apply key value previous →
      tears env apply key (StyleTree.overlayValue value previous) =
        (tears env apply key previous || tears env apply key value)
  | .tree incoming, .tree base, hblend => by
    rw [ValuesBlend] at hblend
    rw [StyleTree.overlayValue]
    cases happlied : applied? key (.tree incoming) with
    | some classes =>
      rw [tears_of_applied happlied, tears_of_applied ((applied?_tree key _ _).trans happlied),
        tears_of_applied ((applied?_tree key _ _).trans happlied), Bool.or_self]
    | none =>
      rw [tears_tree happlied, tears_tree ((applied?_tree key _ _).trans happlied),
        tears_tree ((applied?_tree key _ _).trans happlied),
        any_tears_overlay (hblend happlied).2.1]
  | .scalar _, _, hblend => tears_of_same (Or.inl rfl) hblend
  | .list _, _, hblend => tears_of_same (Or.inl rfl) hblend
  | .tree _, .scalar _, hblend => tears_of_same (Or.inr rfl) hblend
  | .tree _, .list _, hblend => tears_of_same (Or.inr rfl) hblend

end

/-! ## Several trees -/

/-- Merged trees that blend expand to what the trees expand to, merged. -/
theorem expanded_foldl_merge (hregistry : env.registry.WellKeyed)
    (happly : ∀ t, WellKeyed (apply t).value) : ∀ {trees : List StyleTree} {base : StyleTree},
    WellKeyed base → (∀ t ∈ trees, WellKeyed t) → AllBlend env apply base trees →
      expanded env apply (trees.foldl StyleTree.merge base) =
        (trees.map (expanded env apply)).foldl StyleTree.merge (expanded env apply base)
  | [], _, _, _, _ => rfl
  | tree :: rest, base, hbase, htrees, ⟨hblend, hrest⟩ => by
    obtain ⟨htree, htrees⟩ := List.forall_mem_cons.mp htrees
    have hmerged : expanded env apply (StyleTree.merge base tree) =
        StyleTree.merge (expanded env apply base) (expanded env apply tree) := by
      rw [expanded_eq hregistry happly (hbase.merge htree)]
      show (additions env apply (StyleTree.overlay tree base)).foldl StyleTree.merge [] = _
      rw [foldl_additions_overlay hregistry happly htree hbase hblend.entries,
        ← expanded_eq hregistry happly hbase, foldl_additions hregistry happly htree hblend.agree]
    rw [List.foldl_cons, expanded_foldl_merge hregistry happly (hbase.merge htree) htrees hrest,
      hmerged]
    rfl

/-- A name in merged trees that blend is torn if one in one of them is. -/
theorem torn_expand_foldl_merge : ∀ {trees : List StyleTree} {base : StyleTree},
    AllBlend env apply base trees →
      (expand env apply (trees.foldl StyleTree.merge base)).torn =
        ((expand env apply base).torn || trees.any fun t => (expand env apply t).torn)
  | [], _, _ => (Bool.or_false _).symm
  | tree :: rest, base, ⟨hblend, hrest⟩ => by
    have hmerged : (expand env apply (StyleTree.merge base tree)).torn =
        ((expand env apply base).torn || (expand env apply tree).torn) := by
      rw [torn_expand, torn_expand, torn_expand]
      exact any_tears_overlay hblend.entries
    rw [List.foldl_cons, torn_expand_foldl_merge hrest, hmerged, List.any_cons, Bool.or_assoc]

/-! ## Trees that blend under a key -/

/-- Trees that blend do so under a selector. -/
theorem Blends.nest {incoming base : StyleTree} (h : Blends env apply incoming base)
    (hscreen : screen? key = none) :
    Blends env apply (StyleTree.nest key incoming) (StyleTree.nest key base) where
  agree := List.pairwise_singleton _ _
  entries := by
    have hnil : ∀ {value : StyleValue} {entries : List (Text × StyleValue)}, entries = [] →
        Clear env apply key value entries := by
      rintro value entries rfl e he
      exact absurd he List.not_mem_nil
    rw [StyleTree.nest, StyleTree.nest, EntriesBlend]
    refine ⟨fun previous hprevious => ?_, by rw [EntriesBlend]; trivial⟩
    rw [List.lookup_cons_self] at hprevious
    obtain rfl := Option.some.inj hprevious
    refine ⟨?_, hnil (by simp [Keyed.behind]), Or.inr (hnil (by simp [Keyed.before]))⟩
    rw [ValuesBlend]
    refine fun _ => ⟨h.agree, h.entries, fun name hname => ?_⟩
    rw [hscreen] at hname
    exact absurd hname (Option.some_ne_none name).symm

/-! ## Screens of one template -/

/-- A screen with a single template, which opens a level, splits around parts of which the first is
not empty. -/
theorem splits_of_level {name : Text} {found : ResolvedVariant} {level : Text}
    {levels : List Text} (hfound : env.variant name none = .ok found)
    (hwrapper : found.wrapper = .single ⟨[level :: levels], []⟩) {incoming base : StyleTree}
    (hbase : base ≠ []) : Splits env name incoming base := by
  have hscreened : ∀ {t : StyleTree}, t ≠ [] →
      screened env name t = StyleTree.nestIn (level :: levels) t := by
    intro t ht
    have hempty : ¬ t.isEmpty = true := by rwa [List.isEmpty_iff]
    rw [screened, hfound]
    dsimp only
    rw [hwrapper, Wrapper.apply, if_neg hempty]
    exact StyleTree.nil_merge (List.nodup_cons.mpr ⟨List.not_mem_nil, List.nodup_nil⟩)
  by_cases hincoming : incoming = []
  · have hnil : screened env name [] = [] := by
      rw [screened, hfound]
      rfl
    rw [hincoming]
    exact ⟨by rw [hnil]; rfl, by rw [hnil]; exact fun _ hk => absurd hk List.not_mem_nil⟩
  · have hmerge : StyleTree.merge base incoming ≠ [] := fun h =>
      hbase ((StyleTree.merge_eq_nil_iff _ _).mp h).1
    constructor
    · rw [hscreened hmerge, hscreened hbase, hscreened hincoming]
      exact StyleTree.nestIn_merge _ _ _
    · rw [hscreened hbase, hscreened hincoming]
      exact fun _ hk => hk

/-! ## Trees that apply nothing and put nothing into a screen -/

mutual

/-- No entry, wherever it is nested, applies a class list or stands under the key of a screen. -/
def Undirected : List (Text × StyleValue) → Prop
  | [] => True
  | (key, value) :: rest => UndirectedUnder key value ∧ Undirected rest

/-- Neither the entry does so nor what is nested in it. -/
def UndirectedUnder (key : Text) : StyleValue → Prop
  | .tree body => applied? key (.tree body) = none ∧ screen? key = none ∧ Undirected body
  | .scalar text => applied? key (.scalar text) = none ∧ screen? key = none
  | .list items => applied? key (.list items) = none ∧ screen? key = none

end

theorem UndirectedUnder.none {value : StyleValue} (h : UndirectedUnder key value) :
    applied? key value = none ∧ screen? key = none := by
  cases value with
  | tree body => exact ⟨h.1, h.2.1⟩
  | scalar text => exact h
  | list items => exact h

theorem undirected_iff {tree : StyleTree} :
    Undirected tree ↔ ∀ e ∈ tree, UndirectedUnder e.1 e.2 := by
  induction tree with
  | nil => exact ⟨fun _ _ he => absurd he List.not_mem_nil, fun _ => trivial⟩
  | cons entry rest ih =>
    rw [List.forall_mem_cons, ← ih]
    exact Iff.rfl

theorem Undirected.put {base : StyleTree} {value : StyleValue} (h : Undirected base)
    (hvalue : UndirectedUnder key value) : Undirected (Keyed.put key value base) := by
  refine undirected_iff.mpr fun e he => ?_
  rcases Keyed.mem_put he with rfl | he
  · exact hvalue
  · exact undirected_iff.mp h e he

mutual

theorem Undirected.overlay : ∀ {incoming : List (Text × StyleValue)} {base : StyleTree},
    Undirected incoming → Undirected base → Undirected (StyleTree.overlay incoming base)
  | [], _, _, hbase => hbase
  | (key, value) :: rest, base, ⟨hvalue, hrest⟩, hbase => by
    have hlaid : UndirectedUnder key (StyleTree.laidOver value (base.lookup key)) := by
      cases hprevious : base.lookup key with
      | none => exact hvalue
      | some previous =>
        exact UndirectedUnder.overlayValue key hvalue
          (undirected_iff.mp hbase _ (Keyed.mem_of_lookup hprevious))
    rw [StyleTree.overlay_cons_eq]
    exact hrest.overlay (hbase.put hlaid)

theorem UndirectedUnder.overlayValue (key : Text) : ∀ {value previous : StyleValue},
    UndirectedUnder key value → UndirectedUnder key previous →
      UndirectedUnder key (StyleTree.overlayValue value previous)
  | .tree incoming, .tree _, ⟨happlied, hscreen, hincoming⟩, ⟨_, _, hbase⟩ =>
    ⟨(applied?_tree key _ incoming).trans happlied, hscreen, hincoming.overlay hbase⟩
  | .tree _, .scalar _, hvalue, _ => hvalue
  | .tree _, .list _, hvalue, _ => hvalue
  | .scalar _, .tree _, hvalue, _ => hvalue
  | .scalar _, .scalar _, hvalue, _ => hvalue
  | .scalar _, .list _, hvalue, _ => hvalue
  | .list _, .tree _, hvalue, _ => hvalue
  | .list _, .scalar _, hvalue, _ => hvalue
  | .list _, .list _, hvalue, _ => hvalue

end

/-- Such trees apply nothing. -/
theorem Undirected.applications : ∀ {tree : List (Text × StyleValue)}, Undirected tree →
    applications tree = []
  | [], _ => rfl
  | (key, .scalar text) :: rest, ⟨hvalue, hrest⟩ => by
    rw [Directive.applications, entryApplications, hvalue.none.1, Undirected.applications hrest]
    rfl
  | (key, .list items) :: rest, ⟨hvalue, hrest⟩ => by
    rw [Directive.applications, entryApplications, hvalue.none.1, Undirected.applications hrest]
    rfl
  | (key, .tree body) :: rest, ⟨⟨happlied, _, hbody⟩, hrest⟩ => by
    rw [Directive.applications, entryApplications, happlied, Undirected.applications hrest]
    exact congrArg (· ++ []) (Undirected.applications hbody)

section

variable (hregistry : env.registry.WellKeyed) (happly : ∀ t, WellKeyed (apply t).value)
include hregistry happly

/-- What an entry of such a tree adds stands under its key, so it is clear of entries under other
keys. -/
theorem UndirectedUnder.clear {value : StyleValue} (hvalue : WellKeyedValue value)
    (h : UndirectedUnder key value) {entries : List (Text × StyleValue)}
    (hentries : ∀ e ∈ entries, WellKeyedValue e.2 ∧ UndirectedUnder e.1 e.2 ∧ e.1 ≠ key) :
    Clear env apply key value entries := by
  intro e he k hk
  obtain ⟨hother, hunder, hne⟩ := hentries e he
  rw [added_plain hregistry happly hvalue h.none.1 h.none.2] at hk
  rw [added_plain hregistry happly hother hunder.none.1 hunder.none.2]
  intro hke
  exact hne ((List.mem_singleton.mp hke).symm.trans (List.mem_singleton.mp hk))

/-- Such a tree adds under different keys. -/
theorem Undirected.agree {tree : StyleTree} (htree : WellKeyed tree) (h : Undirected tree) :
    (additions env apply tree).Pairwise StyleTree.Agree := by
  have hadded : additions env apply tree = tree.map fun e => [(e.1, rendered env apply e.2)] := by
    refine List.map_congr_left fun e he => ?_
    have hnone := (undirected_iff.mp h e he).none
    exact added_plain hregistry happly ((StyleTree.wellKeyed_iff.mp htree).2 e he) hnone.1 hnone.2
  have hdistinct : tree.Pairwise fun e f => e.1 ≠ f.1 := List.pairwise_map.mp htree.distinct
  rw [hadded]
  refine List.pairwise_map.mpr (hdistinct.imp fun {e f} hne => ?_)
  refine StyleTree.agree_of_values fun k v w hv hw => absurd ?_ hne
  have hk := (Prod.mk.inj (List.mem_singleton.mp (Keyed.mem_of_lookup hv))).1
  exact hk.symm.trans (Prod.mk.inj (List.mem_singleton.mp (Keyed.mem_of_lookup hw))).1

end

/-- Nothing is torn where nothing is applied. -/
theorem Undirected.any_tears : ∀ {tree : List (Text × StyleValue)}, Undirected tree →
    (tree.any fun e => tears env apply e.1 e.2) = false
  | [], _ => rfl
  | (key, .scalar text) :: rest, ⟨hvalue, hrest⟩ => by
    rw [List.any_cons, tears_declaration hvalue.none.1 rfl, Undirected.any_tears hrest]
    rfl
  | (key, .list items) :: rest, ⟨hvalue, hrest⟩ => by
    rw [List.any_cons, tears_declaration hvalue.none.1 rfl, Undirected.any_tears hrest]
    rfl
  | (key, .tree body) :: rest, ⟨⟨happlied, _, hbody⟩, hrest⟩ => by
    rw [List.any_cons, tears_tree happlied, Undirected.any_tears hbody, Undirected.any_tears hrest]
    rfl

theorem UndirectedUnder.tears {value : StyleValue} (h : UndirectedUnder key value) :
    tears env apply key value = false := by
  have hone : ([(key, value)].any fun e => Directive.tears env apply e.1 e.2) = false :=
    Undirected.any_tears ⟨h, trivial⟩
  simpa using hone

theorem UndirectedUnder.sameBlend {value previous : StyleValue} (hvalue : UndirectedUnder key value)
    (hprevious : UndirectedUnder key previous) : applied? key value = applied? key previous ∧
      (applied? key value = Option.none → Directive.tears env apply key previous = false ∧
        ((screen? key).isSome = true → value.isTree = previous.isTree)) := by
  refine ⟨hvalue.none.1.trans hprevious.none.1.symm, fun _ => ⟨hprevious.tears, fun hscreen => ?_⟩⟩
  rw [hvalue.none.2] at hscreen
  exact absurd hscreen Bool.false_ne_true

mutual

theorem Undirected.entriesBlend (hregistry : env.registry.WellKeyed)
    (happly : ∀ t, WellKeyed (apply t).value) : ∀ {incoming : List (Text × StyleValue)}
    {base : StyleTree}, WellKeyed incoming → WellKeyed base → Undirected incoming →
      Undirected base → EntriesBlend env apply incoming base
  | [], _, _, _, _, _ => by rw [EntriesBlend]; trivial
  | (key, value) :: rest, base, ⟨_, hvalue, hrest⟩, hbase, ⟨hundirected, hundirectedRest⟩,
      hundirectedBase => by
    have hlaid : WellKeyedValue (StyleTree.laidOver value (base.lookup key)) ∧
        UndirectedUnder key (StyleTree.laidOver value (base.lookup key)) := by
      cases hprevious : base.lookup key with
      | none => exact ⟨hvalue, hundirected⟩
      | some previous =>
        exact ⟨StyleTree.wellKeyed_overlayValue hvalue (hbase.value hprevious),
          UndirectedUnder.overlayValue key hundirected
            (undirected_iff.mp hundirectedBase _ (Keyed.mem_of_lookup hprevious))⟩
    rw [EntriesBlend]
    refine ⟨fun previous hprevious => ?_, hundirectedRest.entriesBlend hregistry happly hrest
      (hbase.put key hlaid.1) (hundirectedBase.put hlaid.2)⟩
    have hunder := undirected_iff.mp hundirectedBase
    have hothers : ∀ e ∈ Keyed.before key base ++ Keyed.behind key base,
        WellKeyedValue e.2 ∧ UndirectedUnder e.1 e.2 ∧ e.1 ≠ key := by
      intro e he
      obtain ⟨hmem, hne⟩ := hbase.distinct.mem_before_append_behind hprevious he
      exact ⟨(StyleTree.wellKeyed_iff.mp hbase).2 e hmem, hunder e hmem, hne⟩
    exact ⟨UndirectedUnder.valuesBlend hregistry happly key hvalue (hbase.value hprevious)
        hundirected (hunder _ (Keyed.mem_of_lookup hprevious)),
      hundirected.clear hregistry happly hvalue fun e he => hothers e (List.mem_append_right _ he),
      Or.inr (hundirected.clear hregistry happly hvalue fun e he =>
        hothers e (List.mem_append_left _ he))⟩

theorem UndirectedUnder.valuesBlend (hregistry : env.registry.WellKeyed)
    (happly : ∀ t, WellKeyed (apply t).value) (key : Text) : ∀ {value previous : StyleValue},
    WellKeyedValue value → WellKeyedValue previous → UndirectedUnder key value →
      UndirectedUnder key previous → ValuesBlend env apply key value previous
  | .tree incoming, .tree base, hvalue, hprevious, hincoming, hbase => by
    rw [ValuesBlend]
    intro _
    refine ⟨hincoming.2.2.agree hregistry happly hvalue,
      hincoming.2.2.entriesBlend hregistry happly hvalue hprevious hbase.2.2, fun name hname => ?_⟩
    rw [hincoming.none.2] at hname
    exact absurd hname (Option.some_ne_none name).symm
  | .scalar _, _, _, _, hvalue, hprevious => hvalue.sameBlend hprevious
  | .list _, _, _, _, hvalue, hprevious => hvalue.sameBlend hprevious
  | .tree _, .scalar _, _, _, hvalue, hprevious => hvalue.sameBlend hprevious
  | .tree _, .list _, _, _, hvalue, hprevious => hvalue.sameBlend hprevious

end

/-- Trees whose only directives are theme calls always blend. -/
theorem allBlend_of_undirected (hregistry : env.registry.WellKeyed)
    (happly : ∀ t, WellKeyed (apply t).value) : ∀ {trees : List StyleTree} {base : StyleTree},
    WellKeyed base → (∀ t ∈ trees, WellKeyed t) → Undirected base → (∀ t ∈ trees, Undirected t) →
      AllBlend env apply base trees
  | [], _, _, _, _, _ => trivial
  | tree :: rest, base, hbase, htrees, hundirected, hall => by
    obtain ⟨htree, hrest⟩ := List.forall_mem_cons.mp htrees
    obtain ⟨htreeUndirected, hrestUndirected⟩ := List.forall_mem_cons.mp hall
    exact ⟨⟨htreeUndirected.agree hregistry happly htree,
        htreeUndirected.entriesBlend hregistry happly htree hbase hundirected⟩,
      allBlend_of_undirected hregistry happly (hbase.merge htree) hrest
        (htreeUndirected.overlay hundirected) hrestUndirected⟩

end Directive
end UtilityCss
