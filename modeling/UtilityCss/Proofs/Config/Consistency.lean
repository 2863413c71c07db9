import UtilityCss.Proofs.Config.Demand
import UtilityCss.Proofs.Config.Layerwise

/-!
# The theme solves its own equations

A function of the theme sees the theme that is being resolved, so each category is an equation:
its value is the merge of its pieces, where the functions among them are told what the theme
has.  If no category consults itself, directly or through others, the resolved theme
solves these equations, and the order in which categories are declared does not matter.

What a function asks may depend on what it has been told, so a category consults another only
if a piece of it asks for it when the theme answers.  Functions that never ask in a circle,
whatever they are told, satisfy this in particular.
-/

namespace UtilityCss

/-! ## Categories declared in another order -/

/-- The layers declare the same categories and the same extensions, in any order. -/
structure Layer.Redeclared (layer layer' : Layer) : Prop where
  theme : layer.theme.Perm layer'.theme
  extend : layer.extend.Perm layer'.extend
  distinct_theme : Keyed.Distinct layer.theme
  distinct_extend : Keyed.Distinct layer.extend

theorem Layer.Redeclared.refl {layer : Layer} (htheme : Keyed.Distinct layer.theme)
    (hextend : Keyed.Distinct layer.extend) : layer.Redeclared layer :=
  ⟨.refl _, .refl _, htheme, hextend⟩

mutual

/-- The configurations declare the same in each of their layers. -/
inductive Config.Redeclared : Config → Config → Prop where
  | builtin {layer layer' : Layer} {shipped shipped' : List Config} :
    layer.Redeclared layer' → ConfigsRedeclared shipped shipped' →
    Config.Redeclared ⟨layer, none, shipped⟩ ⟨layer', none, shipped'⟩
  | presets {layer layer' : Layer} {presets presets' shipped shipped' : List Config} :
    layer.Redeclared layer' → ConfigsRedeclared presets presets' →
    ConfigsRedeclared shipped shipped' →
    Config.Redeclared ⟨layer, some presets, shipped⟩ ⟨layer', some presets', shipped'⟩

/-- The configurations declare the same one by one. -/
inductive ConfigsRedeclared : List Config → List Config → Prop where
  | nil : ConfigsRedeclared [] []
  | cons {c c' : Config} {rest rest' : List Config} :
    c.Redeclared c' → ConfigsRedeclared rest rest' → ConfigsRedeclared (c :: rest) (c' :: rest')

end

/-- The layers declare the same one by one. -/
abbrev LayersRedeclared : List Layer → List Layer → Prop := List.Forall₂ Layer.Redeclared

mutual

theorem Config.Redeclared.layerwise : ∀ {c c' : Config}, c.Redeclared c' →
    c.Layerwise Layer.Redeclared c'
  | _, _, .builtin hlayer hshipped => .builtin hlayer hshipped.layerwise
  | _, _, .presets hlayer hpresets hshipped =>
    .presets hlayer hpresets.layerwise hshipped.layerwise

theorem ConfigsRedeclared.layerwise : ∀ {cs cs' : List Config}, ConfigsRedeclared cs cs' →
    ConfigsLayerwise Layer.Redeclared cs cs'
  | _, _, .nil => .nil
  | _, _, .cons hc hrest => .cons hc.layerwise hrest.layerwise

end

/-- The layers declare the same; the built-in preset declares every category once. -/
theorem ConfigsRedeclared.allLayers {cs cs' : List Config} (h : ConfigsRedeclared cs cs') :
    LayersRedeclared (Config.allLayers cs) (Config.allLayers cs') :=
  h.layerwise.allLayers (.refl (by decide) (by decide)) (.refl (by decide) (by decide))

namespace Resolve

variable {layers layers' : List Layer}

theorem base?_cons (layer : Layer) (layers : List Layer) (c : Text) :
    base? (layer :: layers) c = (layer.theme.lookup c).or (base? layers c) := by
  rw [base?, base?, List.findSome?_cons]
  cases layer.theme.lookup c <;> rfl

theorem additions_cons (layer : Layer) (layers : List Layer) (c : Text) :
    additions (layer :: layers) c =
      additions layers c ++ (layer.extend.filter fun entry => entry.1 = c).map Prod.snd := by
  simp [additions]

/-- A category has the same pieces where it is declared in another order. -/
theorem pieces_of_redeclared (h : LayersRedeclared layers layers') (c : Text) :
    base? layers' c = base? layers c ∧ additions layers' c = additions layers c := by
  induction h with
  | nil => exact ⟨rfl, rfl⟩
  | @cons layer layer' rest rest' hlayer _ ih =>
    have hdistinct : Keyed.Distinct layer'.extend :=
      (hlayer.extend.map Prod.fst).nodup_iff.mp hlayer.distinct_extend
    rw [base?_cons, base?_cons, additions_cons, additions_cons, ih.1, ih.2,
      Keyed.lookup_perm hlayer.distinct_theme hlayer.theme, Keyed.filter_key hdistinct,
      Keyed.filter_key hlayer.distinct_extend,
      Keyed.lookup_perm hlayer.distinct_extend hlayer.extend]
    exact ⟨rfl, rfl⟩

theorem lookup_categories_of_redeclared (h : LayersRedeclared layers layers') (c : Text) :
    (categories layers').lookup c = (categories layers).lookup c := by
  obtain ⟨hbase, hadditions⟩ := pieces_of_redeclared h c
  rw [lookup_categories, lookup_categories, pieces, pieces, hbase, hadditions]

/-! ## Circles -/

/-- A piece of the category asks for the other, given the answers of the theme. -/
def Consults (layers : List Layer) (theme : Data) (c other : Text) : Prop :=
  ∃ piece ∈ pieces layers c, ∃ path rest,
    piece.query.Asks (answerIn fun name => theme.member? name) path ∧
      Path.read? path = some (other :: rest)

/-- No category consults itself, directly or through others. -/
def Acyclic (layers : List Layer) (theme : Data) : Prop :=
  ∀ c, ¬ Relation.TransGen (Consults layers theme) c c

/-- A piece of a category is one of its entries in some layer. -/
theorem mem_pieces {c : Text} {piece : ThemeValue} (h : piece ∈ pieces layers c) :
    ∃ layer ∈ layers, (c, piece) ∈ layer.theme ∨ (c, piece) ∈ layer.extend := by
  rcases List.mem_append.mp h with h | h
  · obtain ⟨layer, hlayer, hlookup⟩ := List.exists_of_findSome?_eq_some (Option.mem_toList.mp h)
    exact ⟨layer, hlayer, Or.inl (Keyed.mem_of_lookup hlookup)⟩
  · obtain ⟨layer, hlayer, hpiece⟩ := List.mem_flatMap.mp h
    obtain ⟨⟨key, value⟩, hentry, rfl⟩ := List.mem_map.mp hpiece
    obtain ⟨hmem, hkey⟩ := List.mem_filter.mp hentry
    obtain rfl : key = c := by simpa using hkey
    exact ⟨layer, List.mem_reverse.mp hlayer, Or.inr hmem⟩

/-- Categories with ranks that fall from each to those it asks for ask for none in a circle. -/
theorem acyclic_of_rank {theme : Data} (rank : Text → Nat)
    (h : ∀ layer ∈ layers, ∀ entry ∈ layer.theme ++ layer.extend, ∀ path other rest,
      entry.2.query.Asks (answerIn fun name => theme.member? name) path →
      Path.read? path = some (other :: rest) → rank other < rank entry.1) :
    Acyclic layers theme := by
  have hstep : ∀ {c other}, Consults layers theme c other → rank other < rank c := by
    rintro c other ⟨piece, hpiece, path, rest, hasks, hread⟩
    obtain ⟨layer, hlayer, hentry⟩ := mem_pieces hpiece
    exact h layer hlayer (c, piece) (List.mem_append.mpr hentry) path other rest hasks hread
  have hchain : ∀ {c other}, Relation.TransGen (Consults layers theme) c other →
      rank other < rank c := by
    intro c other hchain
    induction hchain with
    | single hconsults => exact hstep hconsults
    | tail _ hconsults ih => exact Nat.lt_trans (hstep hconsults) ih
  exact fun c hcircle => Nat.lt_irrefl _ (hchain hcircle)

/-! ## The equations of a theme -/

variable {category? : Text → Option Data}

/-- A theme that agrees with everything that comes from its own answers is the resolved one, as
far as categories have no circle. -/
theorem member?_theme_of_agrees {table : Categories}
    (hacyclic : ∀ c, ¬ Relation.TransGen (Depends table category?) c c)
    (habsent : ∀ c, table.lookup c = none → category? c = none)
    (hagrees : Agrees table category? (keptAfter table (Keyed.keys table) [])) (c : Text) :
    (theme table).member? c = category? c ∧
      ∀ category, table.lookup c = some category →
        category? c = some (category.query.answerFrom (answerIn category?)) := by
  have hjustified := justified_keptAfter hacyclic habsent (Keyed.keys table) [] .nil hagrees
  rw [member?_theme]
  cases htable : table.lookup c with
  | none =>
    rw [(grown_keptAfter (Keyed.keys table) []).absent htable, habsent c htable]
    exact ⟨rfl, fun _ h => absurd h (by simp)⟩
  | some category =>
    have hkey : c ∈ Keyed.keys table := Keyed.mem_keys_of_lookup htable
    obtain ⟨value, hvalue⟩ := Option.ne_none_iff_exists'.mp (keptAfter_ne_none htable [] hkey)
    have hsome := hjustified.eq_some hagrees hvalue
    rw [hvalue]
    refine ⟨hsome.symm, fun category' hcategory => ?_⟩
    obtain ⟨category'', htable'', hanswer⟩ := hjustified c value hvalue
    obtain rfl := Option.some.inj (htable.symm.trans htable'')
    obtain rfl := Option.some.inj hcategory
    rw [hsome, hanswer]

/-- What a category depends on is what it consults. -/
theorem consults_of_depends {theme : Data} {c other : Text}
    (h : Depends (categories layers) (fun name => theme.member? name) c other) :
    Consults layers theme c other := by
  obtain ⟨category, htable, path, rest, hasks, hread⟩ := h
  obtain ⟨piece, hpiece, hasks'⟩ := asks_of_category htable hasks
  exact ⟨piece, hpiece, path, rest, hasks', hread⟩

/-- Where categories consult none in a circle, they depend on none in a circle. -/
theorem Acyclic.depends {theme : Data} (h : Acyclic layers theme) (c : Text) :
    ¬ Relation.TransGen (Depends (categories layers) fun name => theme.member? name) c c :=
  fun hcircle => h c (hcircle.lift id fun _ _ => consults_of_depends)

/-- The theme agrees with its own values. -/
theorem agrees_theme (table : Categories) :
    Agrees table (fun name => (theme table).member? name)
      (keptAfter table (Keyed.keys table) []) :=
  fun c _ _ hx _ _ => (member?_theme table c).trans hx

end Resolve

namespace Config

open Resolve

/-- Where categories ask for none in a circle, the value of each is the merge of its pieces, every
function among which is told what the theme has, and it stays the same however the
categories are ordered in their layers. -/
theorem resolve_consistent (configs : List Config)
    (hacyclic : Acyclic (allLayers configs) (resolve configs).theme) :
    let theme := (resolve configs).theme
    (∀ c, theme.member? c =
      if pieces (allLayers configs) c = [] then none
      else some (((pieces (allLayers configs) c).map fun piece =>
        piece.query.answerFrom (answerIn fun name => theme.member? name)).foldl Data.merge
          .null)) ∧
    ∀ configs', ConfigsRedeclared configs configs' →
      ∀ c, (resolve configs').theme.member? c = theme.member? c := by
  intro theme
  set table := categories (allLayers configs) with htable
  set category? : Text → Option Data := fun name => theme.member? name with hcategory?
  have hdepends : ∀ c, ¬ Relation.TransGen (Depends table category?) c c := hacyclic.depends
  have habsent : ∀ c, table.lookup c = none → category? c = none :=
    fun c hnone => member?_theme_of_absent hnone
  have hagrees : Agrees table category? (keptAfter table (Keyed.keys table) []) :=
    agrees_theme table
  have hsolves := fun c => (member?_theme_of_agrees hdepends habsent hagrees c).2
  refine ⟨fun c => ?_, fun configs' hredeclared c => ?_⟩
  · split <;> rename_i hpieces
    · exact habsent c ((lookup_categories_eq_none_iff _ c).mpr hpieces)
    · obtain ⟨category, hcategory⟩ := Option.ne_none_iff_exists'.mp fun hnone =>
        hpieces ((lookup_categories_eq_none_iff _ c).mp hnone)
      rw [← answerFrom_category hcategory]
      exact hsolves c category hcategory
  · -- the other table has the same categories, so it is solved by the same theme
    have hlookup : ∀ c, (categories (allLayers configs')).lookup c = table.lookup c :=
      lookup_categories_of_redeclared hredeclared.allLayers
    have hsame : Depends (categories (allLayers configs')) category? = Depends table category? := by
      funext c other
      rw [Depends, Depends, hlookup]
    refine (member?_theme_of_agrees (hsame ▸ hdepends) (fun c hnone => ?_) ?_ c).1
    · exact habsent c (hlookup c ▸ hnone)
    · rintro c x category - hcategory rfl
      exact hsolves c category (hlookup c ▸ hcategory)

/-- A function and an extension of it that ask for categories declared behind them, one of which
is itself a function: the other way around they come to the same. -/
theorem resolve_consistent_forward :
    let steps : Data := .object [(['a'], .text ['1'])]
    let full : Data := .object [(['f'], .text ['9'])]
    let widths : ThemeValue :=
      .computed (.lookup ['s'] fun found => .answer (.merge full (found.getD .null)))
    let gaps : ThemeValue := .computed (Query.theme ['s'])
    let gap : ThemeValue :=
      .computed (.lookup ['g', '.', 'a'] fun found =>
        .answer (.object [(['g'], found.getD .null)]))
    let config (theme extend : List (Text × ThemeValue)) : Config :=
      ⟨{ theme := theme, extend := extend }, some [], []⟩
    let configs :=
      [config [(['w'], widths), (['s'], .data steps), (['g'], gaps)] [(['w'], gap)]]
    let configs' :=
      [config [(['g'], gaps), (['s'], .data steps), (['w'], widths)] [(['w'], gap)]]
    Acyclic (allLayers configs) (resolve configs).theme ∧ ConfigsRedeclared configs configs' ∧
      (resolve configs').theme.member? ['w'] = (resolve configs).theme.member? ['w'] ∧
      (resolve configs).theme.member? ['w'] =
        some (.object [(['f'], .text ['9']), (['a'], .text ['1']), (['g'], .text ['1'])]) := by
  intro steps full widths gaps gap config configs configs'
  have hacyclic : Acyclic (allLayers configs) (resolve configs).theme := by
    refine acyclic_of_rank (fun c => if c = ['w'] then 2 else if c = ['g'] then 1 else 0) ?_
    intro layer hlayer entry hentry path other rest hasks hread
    obtain rfl := List.mem_singleton.mp hlayer
    have hentries : entry = (['w'], widths) ∨ entry = (['s'], .data steps) ∨
        entry = (['g'], gaps) ∨ entry = (['w'], gap) := by simpa using hentry
    rcases hentries with rfl | rfl | rfl | rfl
    · obtain _ | ⟨⟨⟩⟩ := hasks
      cases (show some [['s']] = some (other :: rest) from hread)
      decide
    · exact absurd hasks Query.not_asks_answer
    · obtain _ | ⟨⟨⟩⟩ := hasks
      cases (show some [['s']] = some (other :: rest) from hread)
      decide
    · obtain _ | ⟨⟨⟩⟩ := hasks
      cases (show some [['g'], ['a']] = some (other :: rest) from hread)
      decide
  have hredeclared : ConfigsRedeclared configs configs' := by
    refine .cons (.presets ⟨?_, .refl _, ?_, ?_⟩ .nil .nil) .nil
    · exact (List.reverse_perm _).symm
    · decide
    · decide
  exact ⟨hacyclic, hredeclared, (resolve_consistent configs hacyclic).2 configs' hredeclared ['w'],
    by decide⟩

end Config
end UtilityCss
