import Mathlib.Computability.Language
import Mathlib.Data.List.Forall2
import UtilityCss.Value.Composite

/-!
# The grammar of positions

A layer of positions is a list of terms that CSS generates by

    [left | center | right | top | bottom | LP]
    | [left | center | right | LP] [top | center | bottom | LP]
    | [center | [left | right] LP?] && [center | [top | bottom] LP?]

where `LP` is a length, a percentage or a reference, and `&&` allows either order.  Here this is
`Position.grammar`, a language over terms, and a value is accepted exactly if each of its layers has
something in it and is in this language.

A layer is not read along the grammar.  The sort of every term is read, two terms have to go on
different axes, and three or four terms are put into groups: a keyword, and with an edge the offset
behind it.  Both sides meet in languages over sorts of terms.  A list of groups is a word of a product
of languages, one for each axis (`edgeAxes?_eq_some_iff`), and reading the sorts of terms takes sums to
sums and products to products (`spelled_add`, `spelled_mul`).
-/

namespace UtilityCss
namespace Value

namespace Position

/-! ## The grammar -/

/-- The one term that is this keyword. -/
def keyword (word : String) : Language Text := {[word.toList]}

/-- The one term that is a length, a percentage or a reference. -/
def lengthPercentage : Language Text := {ts | ∃ t, ts = [t] ∧ isLengthPercentage t = true}

section

variable {α : Type}

/-- What may be left out. -/
def optional (l : Language α) : Language α := 1 + l

/-- Both, in either order. -/
def both (l m : Language α) : Language α := l * m + m * l

end

/-- The lists of terms that are one position. -/
def grammar : Language Text :=
  (keyword "left" + keyword "center" + keyword "right" + keyword "top" + keyword "bottom"
      + lengthPercentage)
    + (keyword "left" + keyword "center" + keyword "right" + lengthPercentage)
      * (keyword "top" + keyword "center" + keyword "bottom" + lengthPercentage)
    + both
        (keyword "center" + (keyword "left" + keyword "right") * optional lengthPercentage)
        (keyword "center" + (keyword "top" + keyword "bottom") * optional lengthPercentage)

theorem singleton_mem_keyword {t : Text} {word : String} :
    [t] ∈ keyword word ↔ t = word.toList :=
  List.singleton_inj

theorem singleton_mem_lengthPercentage {t : Text} :
    [t] ∈ lengthPercentage ↔ isLengthPercentage t = true := by
  constructor
  · rintro ⟨u, h, hu⟩
    rwa [List.singleton_inj.mp h]
  · exact fun h => ⟨t, rfl, h⟩

end Position

/-- Two axes go side by side if the one can be horizontal and the other vertical. -/
theorem Axis.goesWith_iff {a b : Axis} : a.goesWith b = true ↔
    a ≠ .vertical ∧ b ≠ .horizontal ∨ a ≠ .horizontal ∧ b ≠ .vertical := by
  cases a <;> cases b <;> decide

/-! ## Sorts of terms -/

namespace PositionTerm

open Position

variable {t : Text} {ts : List Text} {k : PositionTerm}

/-- The terms of a sort; none is an edge along either axis. -/
def terms : PositionTerm → Language Text
  | edge .horizontal => keyword "left" + keyword "right"
  | edge .vertical => keyword "top" + keyword "bottom"
  | edge .either => 0
  | center => keyword "center"
  | offset => lengthPercentage

theorem exists_of_mem_terms (h : ts ∈ k.terms) : ∃ t, ts = [t] := by
  match k, h with
  | edge .horizontal, .inl h => exact ⟨_, h⟩
  | edge .horizontal, .inr h => exact ⟨_, h⟩
  | edge .vertical, .inl h => exact ⟨_, h⟩
  | edge .vertical, .inr h => exact ⟨_, h⟩
  | center, h => exact ⟨_, h⟩
  | offset, ⟨t, h, _⟩ => exact ⟨t, h⟩

/-- The sort that is read is the only one, since no keyword is a length. -/
theorem read?_eq_some_iff : read? t = some k ↔ [t] ∈ k.terms := by
  have hkeyword : ∀ word ∈ Text.listOf ["left", "right", "top", "bottom", "center"],
      isLengthPercentage word = false := by decide
  have hread : read? t = some k → [t] ∈ k.terms := by
    unfold read?
    simp only [Bool.or_eq_true, decide_eq_true_eq]
    intro h
    split at h
    next hword =>
      obtain rfl := Option.some.inj h
      exact hword.imp singleton_mem_keyword.mpr singleton_mem_keyword.mpr
    split at h
    next hword =>
      obtain rfl := Option.some.inj h
      exact hword.imp singleton_mem_keyword.mpr singleton_mem_keyword.mpr
    split at h
    next hword =>
      obtain rfl := Option.some.inj h
      exact singleton_mem_keyword.mpr hword
    split at h
    next hlength =>
      obtain rfl := Option.some.inj h
      exact singleton_mem_lengthPercentage.mpr hlength
    next => cases h
  refine ⟨hread, fun h => ?_⟩
  match k, h with
  | edge .horizontal, .inl h => rw [singleton_mem_keyword.mp h]; rfl
  | edge .horizontal, .inr h => rw [singleton_mem_keyword.mp h]; rfl
  | edge .vertical, .inl h => rw [singleton_mem_keyword.mp h]; rfl
  | edge .vertical, .inr h => rw [singleton_mem_keyword.mp h]; rfl
  | center, h => rw [singleton_mem_keyword.mp h]; rfl
  | offset, h =>
    have hlength := singleton_mem_lengthPercentage.mp h
    have hne : ∀ word ∈ Text.listOf ["left", "right", "top", "bottom", "center"], t ≠ word := by
      rintro word hword rfl
      exact Bool.false_ne_true ((hkeyword t hword).symm.trans hlength)
    simp only [Text.listOf, List.map_cons, List.map_nil, List.forall_mem_cons] at hne
    obtain ⟨hleft, hright, htop, hbottom, hcenter, -⟩ := hne
    simp only [read?, hleft, hright, htop, hbottom, hcenter, hlength, decide_false, Bool.or_self,
      Bool.false_eq_true, if_false, if_true]

end PositionTerm

namespace Position

section

variable {t : Text} {ts : List Text} {ks : List PositionTerm} {l m : Language PositionTerm}
  {p : PositionTerm → Prop}

/-- The lists of terms whose sorts are a word of the language. -/
def spelled (l : Language PositionTerm) : Language Text :=
  {ts | ∃ ks ∈ l, List.Forall₂ (fun t k => PositionTerm.read? t = some k) ts ks}

theorem spelled_add : spelled (l + m) = spelled l + spelled m := by
  ext ts
  constructor
  · rintro ⟨ks, hks | hks, hread⟩
    · exact .inl ⟨ks, hks, hread⟩
    · exact .inr ⟨ks, hks, hread⟩
  · rintro (⟨ks, hks, hread⟩ | ⟨ks, hks, hread⟩)
    · exact ⟨ks, .inl hks, hread⟩
    · exact ⟨ks, .inr hks, hread⟩

theorem spelled_one : spelled 1 = 1 := by
  ext ts
  constructor
  · rintro ⟨ks, rfl, hread⟩
    exact List.forall₂_nil_right_iff.mp hread
  · rintro rfl
    exact ⟨[], rfl, .nil⟩

theorem spelled_mul : spelled (l * m) = spelled l * spelled m := by
  ext ts
  constructor
  · rintro ⟨_, ⟨us, hus, vs, hvs, rfl⟩, hread⟩
    exact ⟨ts.take us.length, ⟨us, hus, List.forall₂_take_append ts us vs hread⟩,
      ts.drop us.length, ⟨vs, hvs, List.forall₂_drop_append ts us vs hread⟩,
      List.take_append_drop ..⟩
  · rintro ⟨_, ⟨us, hus, hu⟩, _, ⟨vs, hvs, hv⟩, rfl⟩
    exact ⟨us ++ vs, ⟨us, hus, vs, hvs, rfl⟩, List.rel_append hu hv⟩

theorem spelled_optional : spelled (optional l) = optional (spelled l) := by
  rw [optional, spelled_add, spelled_one, optional]

theorem spelled_both : spelled (both l m) = both (spelled l) (spelled m) := by
  rw [both, spelled_add, spelled_mul, spelled_mul, both]

/-- One term, of a sort that satisfies the condition. -/
def single (p : PositionTerm → Prop) : Language PositionTerm := {ks | ∃ k, ks = [k] ∧ p k}

theorem mem_spelled_single : ts ∈ spelled (single p) ↔ ∃ k, p k ∧ ts ∈ k.terms := by
  constructor
  · rintro ⟨_, ⟨k, rfl, hk⟩, hread⟩
    obtain ⟨t, _, ht, hnil, rfl⟩ := List.forall₂_cons_right_iff.mp hread
    obtain rfl := List.forall₂_nil_right_iff.mp hnil
    exact ⟨k, hk, PositionTerm.read?_eq_some_iff.mp ht⟩
  · rintro ⟨k, hk, hts⟩
    obtain ⟨t, rfl⟩ := PositionTerm.exists_of_mem_terms hts
    exact ⟨[k], ⟨k, rfl, hk⟩, .cons (PositionTerm.read?_eq_some_iff.mpr hts) .nil⟩

/-- There are four sorts of terms. -/
theorem mem_spelled_single_iff : ts ∈ spelled (single p) ↔
    p (.edge .horizontal) ∧ ts ∈ keyword "left" + keyword "right" ∨
    p (.edge .vertical) ∧ ts ∈ keyword "top" + keyword "bottom" ∨
    p .center ∧ ts ∈ keyword "center" ∨ p .offset ∧ ts ∈ lengthPercentage := by
  rw [mem_spelled_single]
  constructor
  · rintro ⟨k, hk, hts⟩
    match k, hk, hts with
    | .edge .horizontal, hk, hts => exact .inl ⟨hk, hts⟩
    | .edge .vertical, hk, hts => exact .inr (.inl ⟨hk, hts⟩)
    | .center, hk, hts => exact .inr (.inr (.inl ⟨hk, hts⟩))
    | .offset, hk, hts => exact .inr (.inr (.inr ⟨hk, hts⟩))
  · rintro (⟨hk, hts⟩ | ⟨hk, hts⟩ | ⟨hk, hts⟩ | ⟨hk, hts⟩)
    · exact ⟨.edge .horizontal, hk, hts⟩
    · exact ⟨.edge .vertical, hk, hts⟩
    · exact ⟨.center, hk, hts⟩
    · exact ⟨.offset, hk, hts⟩

theorem mapM_read?_iff : ts.mapM PositionTerm.read? = some ks ↔
    List.Forall₂ (fun t k => PositionTerm.read? t = some k) ts ks := by
  induction ts generalizing ks with
  | nil =>
    rw [List.mapM_nil, List.forall₂_nil_left_iff]
    exact ⟨fun h => (Option.some.inj h).symm, fun h => congrArg some h.symm⟩
  | cons t ts ih =>
    rw [List.mapM_cons, List.forall₂_cons_left_iff]
    simp only [Option.bind_eq_bind, Option.bind_eq_some_iff, ih]
    constructor
    · rintro ⟨k, hk, rest, hrest, h⟩
      exact ⟨k, rest, hk, hrest, (Option.some.inj h).symm⟩
    · rintro ⟨k, rest, hk, hrest, rfl⟩
      exact ⟨k, hk, rest, hrest, rfl⟩

/-- The layers that are accepted are spelled by the lists of sorts that are. -/
theorem isPositionLayer_iff :
    isPositionLayer t = true ↔ Split.terms t ∈ spelled {ks | isPosition ks = true} := by
  rw [isPositionLayer]
  constructor
  · intro h
    split at h
    next ks hks => exact ⟨ks, h, mapM_read?_iff.mp hks⟩
    next => exact Bool.noConfusion h
  · rintro ⟨ks, hks, hread⟩
    rw [mapM_read?_iff.mpr hread]
    exact hks

end

/-! ## Groups of terms -/

section

variable {ks : List PositionTerm} {a b : Axis} {axes : List Axis}

/-- A keyword of the axis; an edge may have an offset behind it. -/
def group (a : Axis) : Language PositionTerm :=
  single (fun k => a = .either ∧ k = .center)
    + single (· = .edge a) * optional (single (· = .offset))

theorem mem_group_iff : ks ∈ group a ↔
    a = .either ∧ ks = [.center] ∨ ks = [.edge a] ∨ ks = [.edge a, .offset] := by
  rw [group, Language.mem_add, Language.mem_mul]
  constructor
  · rintro (⟨_, rfl, ha, rfl⟩ | ⟨_, ⟨_, rfl, rfl⟩, _, rfl | ⟨_, rfl, rfl⟩, rfl⟩)
    · exact .inl ⟨ha, rfl⟩
    · exact .inr (.inl rfl)
    · exact .inr (.inr rfl)
  · rintro (⟨ha, rfl⟩ | rfl | rfl)
    · exact .inl ⟨_, rfl, ha, rfl⟩
    · exact .inr ⟨_, ⟨_, rfl, rfl⟩, [], .inl rfl, rfl⟩
    · exact .inr ⟨_, ⟨_, rfl, rfl⟩, _, .inr ⟨_, rfl, rfl⟩, rfl⟩

/-- A list of groups begins with the first of them. -/
theorem mem_prod_group_cons : ks ∈ ((a :: axes).map group).prod ↔
    ∃ rest ∈ (axes.map group).prod, a = .either ∧ ks = .center :: rest ∨ ks = .edge a :: rest ∨
      ks = .edge a :: .offset :: rest := by
  rw [List.map_cons, List.prod_cons, Language.mem_mul]
  constructor
  · rintro ⟨u, hu, rest, hrest, rfl⟩
    refine ⟨rest, hrest, ?_⟩
    rcases mem_group_iff.mp hu with ⟨ha, rfl⟩ | rfl | rfl
    · exact .inl ⟨ha, rfl⟩
    · exact .inr (.inl rfl)
    · exact .inr (.inr rfl)
  · rintro ⟨rest, hrest, ⟨ha, rfl⟩ | rfl | rfl⟩
    · exact ⟨[.center], mem_group_iff.mpr (.inl ⟨ha, rfl⟩), rest, hrest, rfl⟩
    · exact ⟨[.edge a], mem_group_iff.mpr (.inr (.inl rfl)), rest, hrest, rfl⟩
    · exact ⟨[.edge a, .offset], mem_group_iff.mpr (.inr (.inr rfl)), rest, hrest, rfl⟩

theorem nil_mem_prod_group_iff : [] ∈ (axes.map group).prod ↔ axes = [] := by
  cases axes with
  | nil => exact iff_of_true rfl rfl
  | cons a axes =>
    refine iff_of_false (fun h => ?_) (List.cons_ne_nil a axes)
    obtain ⟨_, -, ⟨-, hks⟩ | hks | hks⟩ := mem_prod_group_cons.mp h
    · cases hks
    · cases hks
    · cases hks

/-- No group begins with an offset. -/
theorem offset_cons_notMem_prod_group : .offset :: ks ∉ (axes.map group).prod := by
  intro h
  cases axes with
  | nil => cases h
  | cons a axes =>
    obtain ⟨_, -, ⟨-, hks⟩ | hks | hks⟩ := mem_prod_group_cons.mp h
    · cases hks
    · cases hks
    · cases hks

theorem center_cons_mem_prod_group_iff : .center :: ks ∈ (axes.map group).prod ↔
    ∃ rest, ks ∈ (rest.map group).prod ∧ .either :: rest = axes := by
  constructor
  · intro h
    cases axes with
    | nil => cases h
    | cons a axes =>
      obtain ⟨_, hrest, ⟨rfl, hks⟩ | hks | hks⟩ := mem_prod_group_cons.mp h
      · cases hks
        exact ⟨axes, hrest, rfl⟩
      · cases hks
      · cases hks
  · rintro ⟨rest, h, rfl⟩
    exact mem_prod_group_cons.mpr ⟨ks, h, .inl ⟨rfl, rfl⟩⟩

/-- An edge takes the offset behind it. -/
theorem edge_cons_mem_prod_group_iff : .edge a :: ks ∈ (axes.map group).prod ↔
    ∃ rest, (ks ∈ (rest.map group).prod ∨ ∃ us ∈ (rest.map group).prod, ks = .offset :: us) ∧
      a :: rest = axes := by
  constructor
  · intro h
    cases axes with
    | nil => cases h
    | cons b axes =>
      obtain ⟨us, hrest, ⟨-, hks⟩ | hks | hks⟩ := mem_prod_group_cons.mp h
      · cases hks
      · cases hks
        exact ⟨axes, .inl hrest, rfl⟩
      · cases hks
        exact ⟨axes, .inr ⟨us, hrest, rfl⟩, rfl⟩
  · rintro ⟨rest, h | ⟨us, h, rfl⟩, rfl⟩
    · exact mem_prod_group_cons.mpr ⟨ks, h, .inr (.inl rfl)⟩
    · exact mem_prod_group_cons.mpr ⟨us, h, .inr (.inr rfl)⟩

/-- The loop finds the groups that the list is made of. -/
theorem edgeAxes?_eq_some_iff : edgeAxes? ks = some axes ↔ ks ∈ (axes.map group).prod := by
  fun_induction edgeAxes? ks generalizing axes with
  | case1 => rw [nil_mem_prod_group_iff, Option.some.injEq, eq_comm]
  | case2 rest => exact iff_of_false (by simp) offset_cons_notMem_prod_group
  | case3 rest ih =>
    rw [Option.map_eq_some_iff, center_cons_mem_prod_group_iff]
    simp only [ih]
  | case4 axis rest ih =>
    rw [Option.map_eq_some_iff, edge_cons_mem_prod_group_iff]
    simp only [ih, offset_cons_notMem_prod_group, false_or, List.cons.injEq, true_and,
      exists_eq_right']
  | case5 axis rest hoffset ih =>
    have hnone : ∀ us, rest ≠ .offset :: us := fun us h => hoffset us h
    rw [Option.map_eq_some_iff, edge_cons_mem_prod_group_iff]
    simp only [ih, hnone, and_false, exists_false, or_false]

/-- A keyword that can be placed along another axis than this one, with its offset. -/
def besides (a : Axis) : Language PositionTerm :=
  single (· = .center) + single (fun k => ∃ b ≠ a, k = .edge b) * optional (single (· = .offset))

theorem mem_besides_iff (ha : a ≠ .either) : ks ∈ besides a ↔ ∃ b ≠ a, ks ∈ group b := by
  rw [besides, Language.mem_add, Language.mem_mul]
  constructor
  · rintro (⟨_, rfl, rfl⟩ | ⟨_, ⟨_, rfl, b, hb, rfl⟩, v, hv, rfl⟩)
    · exact ⟨.either, ha.symm, .inl ⟨_, rfl, rfl, rfl⟩⟩
    · exact ⟨b, hb, .inr ⟨_, ⟨_, rfl, rfl⟩, v, hv, rfl⟩⟩
  · rintro ⟨b, hb, ⟨_, rfl, -, rfl⟩ | ⟨_, ⟨_, rfl, rfl⟩, v, hv, rfl⟩⟩
    · exact .inl ⟨_, rfl, rfl⟩
    · exact .inr ⟨_, ⟨_, rfl, b, hb, rfl⟩, v, hv, rfl⟩

theorem twoEdges_iff_exists : isPosition.twoEdges ks = true ↔
    ∃ a b, a.goesWith b = true ∧ ks ∈ group a * group b := by
  have hprod : ∀ a b, ([a, b].map group).prod = group a * group b := fun a b => by simp
  rw [isPosition.twoEdges]
  constructor
  · intro h
    split at h
    next a b haxes => exact ⟨a, b, h, hprod a b ▸ edgeAxes?_eq_some_iff.mp haxes⟩
    next => exact Bool.noConfusion h
  · rintro ⟨a, b, h, hks⟩
    rw [edgeAxes?_eq_some_iff.mpr ((hprod a b).symm ▸ hks)]
    exact h

/-- Two groups are accepted if they can be placed along different axes. -/
theorem twoEdges_iff : isPosition.twoEdges ks = true ↔
    ks ∈ both (besides .vertical) (besides .horizontal) := by
  rw [twoEdges_iff_exists, both, Language.mem_add, Language.mem_mul, Language.mem_mul]
  simp only [mem_besides_iff (a := .vertical) (by decide),
    mem_besides_iff (a := .horizontal) (by decide), Axis.goesWith_iff, Language.mem_mul]
  constructor
  · rintro ⟨a, b, ⟨ha, hb⟩ | ⟨ha, hb⟩, u, hu, v, hv, rfl⟩
    · exact .inl ⟨u, ⟨a, ha, hu⟩, v, ⟨b, hb, hv⟩, rfl⟩
    · exact .inr ⟨u, ⟨a, ha, hu⟩, v, ⟨b, hb, hv⟩, rfl⟩
  · rintro (⟨u, ⟨a, ha, hu⟩, v, ⟨b, hb, hv⟩, rfl⟩ | ⟨u, ⟨a, ha, hu⟩, v, ⟨b, hb, hv⟩, rfl⟩)
    · exact ⟨a, b, .inl ⟨ha, hb⟩, u, hu, v, hv, rfl⟩
    · exact ⟨a, b, .inr ⟨ha, hb⟩, u, hu, v, hv, rfl⟩

/-- Two groups are two to four terms. -/
theorem length_of_twoEdges (h : isPosition.twoEdges ks = true) : ks.length ≤ 4 := by
  have hgroup : ∀ {a : Axis} {us : List PositionTerm}, us ∈ group a → us.length ≤ 2 := by
    intro a us hus
    rcases mem_group_iff.mp hus with ⟨-, rfl⟩ | rfl | rfl
    · exact Nat.le_succ 1
    · exact Nat.le_succ 1
    · exact Nat.le_refl 2
  obtain ⟨a, b, -, u, hu, v, hv, rfl⟩ := twoEdges_iff_exists.mp h
  have hu := hgroup hu
  have hv := hgroup hv
  rw [List.length_append]
  omega

theorem mem_single_mul_single {p q : PositionTerm → Prop} :
    ks ∈ single p * single q ↔ ∃ a b, ks = [a, b] ∧ p a ∧ q b := by
  constructor
  · rintro ⟨_, ⟨a, rfl, ha⟩, _, ⟨b, rfl, hb⟩, rfl⟩
    exact ⟨a, b, rfl, ha, hb⟩
  · rintro ⟨a, b, rfl, ha, hb⟩
    exact ⟨[a], ⟨a, rfl, ha⟩, [b], ⟨b, rfl, hb⟩, rfl⟩

/-- Of two terms, either the first is placed horizontally and the second vertically, or they are
two groups without offsets. -/
theorem isPosition_pair (a b : PositionTerm) : isPosition [a, b] = true ↔
    a.axisAt .horizontal ≠ .vertical ∧ b.axisAt .vertical ≠ .horizontal ∨
      isPosition.twoEdges [a, b] = true := by
  rcases a with (_ | _ | _) | _ | _ <;> rcases b with (_ | _ | _) | _ | _ <;> decide

/-- The sorts of terms that are a position, by their number. -/
theorem isPosition_iff : isPosition ks = true ↔
    ks ∈ single (fun _ => True)
      + single (fun k => k.axisAt .horizontal ≠ .vertical)
        * single (fun k => k.axisAt .vertical ≠ .horizontal)
      + both (besides .vertical) (besides .horizontal) := by
  rw [Language.mem_add, Language.mem_add, ← twoEdges_iff, mem_single_mul_single]
  match ks with
  | [] =>
    refine iff_of_false Bool.false_ne_true ?_
    rintro ((⟨_, h, -⟩ | ⟨_, _, h, -⟩) | h)
    · cases h
    · cases h
    · exact absurd h (by decide)
  | [k] => exact iff_of_true rfl (.inl (.inl ⟨k, rfl, trivial⟩))
  | [a, b] =>
    rw [isPosition_pair]
    constructor
    · rintro (⟨ha, hb⟩ | h)
      · exact .inl (.inr ⟨a, b, rfl, ha, hb⟩)
      · exact .inr h
    · rintro ((⟨_, h, -⟩ | ⟨_, _, h, ha, hb⟩) | h)
      · cases h
      · cases h
        exact .inl ⟨ha, hb⟩
      · exact .inr h
  | [a, b, c] =>
    refine ⟨.inr, ?_⟩
    rintro ((⟨_, h, -⟩ | ⟨_, _, h, -⟩) | h)
    · cases h
    · cases h
    · exact h
  | [a, b, c, d] =>
    refine ⟨.inr, ?_⟩
    rintro ((⟨_, h, -⟩ | ⟨_, _, h, -⟩) | h)
    · cases h
    · cases h
    · exact h
  | _ :: _ :: _ :: _ :: _ :: ks =>
    refine iff_of_false Bool.false_ne_true ?_
    rintro ((⟨_, h, -⟩ | ⟨_, _, h, -⟩) | h)
    · cases h
    · cases h
    · exact absurd (length_of_twoEdges h) (by simp)

end

/-! ## Positions -/

theorem spelled_besides (a : Axis) : spelled (besides a) = keyword "center" +
    spelled (single fun k => ∃ b ≠ a, k = .edge b) * optional lengthPercentage := by
  have hcenter : spelled (single (· = .center)) = keyword "center" := by
    ext ts
    rw [mem_spelled_single_iff]
    simp
  have hoffset : spelled (single (· = .offset)) = lengthPercentage := by
    ext ts
    rw [mem_spelled_single_iff]
    simp
  rw [besides, spelled_add, spelled_mul, spelled_optional, hcenter, hoffset]

theorem spelled_besides_vertical : spelled (besides .vertical) =
    keyword "center" + (keyword "left" + keyword "right") * optional lengthPercentage := by
  have hedge : spelled (single fun k => ∃ b ≠ Axis.vertical, k = .edge b) =
      keyword "left" + keyword "right" := by
    ext ts
    rw [mem_spelled_single_iff]
    simp
  rw [spelled_besides, hedge]

theorem spelled_besides_horizontal : spelled (besides .horizontal) =
    keyword "center" + (keyword "top" + keyword "bottom") * optional lengthPercentage := by
  have hedge : spelled (single fun k => ∃ b ≠ Axis.horizontal, k = .edge b) =
      keyword "top" + keyword "bottom" := by
    ext ts
    rw [mem_spelled_single_iff]
    simp
  rw [spelled_besides, hedge]

theorem spelled_any : spelled (single fun _ => True) =
    keyword "left" + keyword "center" + keyword "right" + keyword "top" + keyword "bottom"
      + lengthPercentage := by
  ext ts
  rw [mem_spelled_single_iff]
  simp only [Language.mem_add, true_and]
  tauto

/-- The first of two terms, if it is placed horizontally. -/
theorem spelled_first : spelled (single fun k => k.axisAt .horizontal ≠ .vertical) =
    keyword "left" + keyword "center" + keyword "right" + lengthPercentage := by
  ext ts
  rw [mem_spelled_single_iff]
  simp only [Language.mem_add, PositionTerm.axisAt, PositionTerm.axis, ne_eq, reduceCtorEq,
    not_true_eq_false, not_false_eq_true, true_and, false_and, false_or]
  tauto

/-- The second of two terms, if it is placed vertically. -/
theorem spelled_second : spelled (single fun k => k.axisAt .vertical ≠ .horizontal) =
    keyword "top" + keyword "center" + keyword "bottom" + lengthPercentage := by
  ext ts
  rw [mem_spelled_single_iff]
  simp only [Language.mem_add, PositionTerm.axisAt, PositionTerm.axis, ne_eq, reduceCtorEq,
    not_true_eq_false, not_false_eq_true, true_and, false_and, false_or]
  tauto

/-- The layers that are accepted are those whose terms the grammar generates. -/
theorem isPositionLayer_iff_mem_grammar {t : Text} :
    isPositionLayer t = true ↔ Split.terms t ∈ grammar := by
  have hsorts : ({ks | isPosition ks = true} : Language PositionTerm) =
      single (fun _ => True)
        + single (fun k => k.axisAt .horizontal ≠ .vertical)
          * single (fun k => k.axisAt .vertical ≠ .horizontal)
        + both (besides .vertical) (besides .horizontal) := by
    ext ks
    exact isPosition_iff
  rw [isPositionLayer_iff, hsorts, spelled_add, spelled_add, spelled_mul, spelled_both, spelled_any,
    spelled_first, spelled_second, spelled_besides_vertical, spelled_besides_horizontal, grammar]

end Position

/-- The layers of a value are what stands between its commas, without the blanks around it. -/
theorem allLayers_iff {p : Text → Bool} {t : Text} : allLayers p t = true ↔
    ∀ part ∈ Split.atChar ',' t, Text.trim part ≠ [] ∧ p (Text.trim part) = true := by
  simp only [allLayers, layers?]
  split
  next hne =>
    simp only [List.all_eq_true, List.forall_mem_map, Bool.not_eq_true', List.isEmpty_eq_false_iff]
      at hne
    simp only [Option.any_some, List.all_eq_true, List.forall_mem_map]
    exact ⟨fun h part hpart => ⟨hne part hpart, h part hpart⟩, fun h part hpart => (h part hpart).2⟩
  next hne =>
    simp only [List.all_eq_true, List.forall_mem_map, Bool.not_eq_true', List.isEmpty_eq_false_iff]
      at hne
    exact iff_of_false Bool.false_ne_true fun h => hne fun part hpart => (h part hpart).1

/-- **Positions are what the grammar of CSS generates.**  A value is accepted exactly if each of the
layers between its commas has something in it besides blanks, and the terms of each are generated by
the grammar. -/
theorem isBackgroundPosition_iff (t : Text) : isBackgroundPosition t = true ↔
    ∀ part ∈ Split.atChar ',' t,
      Text.trim part ≠ [] ∧ Split.terms (Text.trim part) ∈ Position.grammar := by
  simp only [isBackgroundPosition, allLayers_iff, Position.isPositionLayer_iff_mem_grammar]

example : isBackgroundPosition "right 10px bottom 5%, center top 10px, 10% 20px" = true ∧
    isBackgroundPosition "center, top 10px" = false := by decide

end Value
end UtilityCss
