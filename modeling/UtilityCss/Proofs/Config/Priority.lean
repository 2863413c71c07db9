import UtilityCss.Proofs.Config.Unasked
import UtilityCss.Proofs.Json.Layered

/-!
# Extensions by priority

A category that no layer makes a function is the merge of data: first its definition in the layer
that counts most among those that have one, then the extensions of all layers, the layer that counts
least first.  Which circles there are among other categories does not matter.

Where a path leads through objects only, or to nothing, the last piece with a value at its end
decides.  That is the extension of the layer that counts most among those that say something there,
and the definition where no extension does.  No extension removes anything on the way: every object
along the path has the keys of all pieces.
-/

namespace UtilityCss

namespace Resolve

variable {layers : List Layer} {c : Text} {base : Option Data} {extensions : List Data}

/-- In the layers the category is data: this is its definition, and these are its extensions, that
of the layer that counts most first. -/
structure DeclaredAs (layers : List Layer) (c : Text) (base : Option Data)
    (extensions : List Data) : Prop where
  base : base? layers c = base.map .data
  extensions : layers.filterMap (fun layer => layer.extend.lookup c) = extensions.map .data
  /-- No layer extends a category twice. -/
  distinct : ∀ layer ∈ layers, Keyed.Distinct layer.extend

theorem additions_eq_filterMap (h : ∀ layer ∈ layers, Keyed.Distinct layer.extend) :
    additions layers c = (layers.filterMap fun layer => layer.extend.lookup c).reverse := by
  rw [← List.filterMap_reverse, List.filterMap_eq_flatMap_toList]
  refine List.flatMap_congr fun layer hlayer => ?_
  exact Keyed.filter_key (h layer (List.mem_reverse.mp hlayer))

/-- The pieces of such a category, in the order in which they are merged. -/
theorem DeclaredAs.pieces (h : DeclaredAs layers c base extensions) :
    pieces layers c = (base.toList ++ extensions.reverse).map .data := by
  rw [Resolve.pieces, h.base, additions_eq_filterMap h.distinct, h.extensions, List.map_append,
    List.map_reverse]
  cases base <;> rfl

/-- A category whose pieces are data has the merge of them for its value. -/
theorem member?_theme_of_data {values : List Data} (h : pieces layers c = values.map .data)
    (hne : values ≠ []) :
    (theme (categories layers)).member? c = some (values.foldl Data.merge .null) := by
  obtain ⟨category, hcategory⟩ := exists_category fun hnil =>
    hne (List.map_eq_nil_iff.mp (h.symm.trans hnil))
  have hqueries : (values.map ThemeValue.data).map ThemeValue.query = values.map .answer :=
    List.map_map
  refine member?_theme_of_answer hcategory ?_
  rw [query_category hcategory, h, hqueries, Query.merged_map_answer]

/-- Below such a category a path leads in the theme where it leads in the merge of the pieces. -/
theorem at?_theme_of_data {values : List Data} (h : pieces layers c = values.map .data)
    (hne : values ≠ []) (path : List Text) :
    (theme (categories layers)).at? (c :: path) = (values.foldl Data.merge .null).at? path := by
  rw [Data.at?, member?_theme_of_data h hne, Option.bind_some]

end Resolve

namespace Config

open Resolve

/-- At the end of a path the theme has what the extension of the layer that counts most has there,
of those that have anything but `null`, and without one of those what the definition has.  Something
is there as soon as one of the pieces has something there, be it `null`, and the objects on the way
have the keys of all pieces: first those of the definition, then those that are new, the layer that
counts least first. -/
theorem resolve_extended (configs : List Config) {c : Text} {base : Option Data}
    {extensions : List Data} {path : List Text}
    (hdeclared : DeclaredAs (allLayers configs) c base extensions)
    (hpath : ∀ d ∈ base.toList ++ extensions, d.LeadsToScalar path) :
    let theme := (resolve configs).theme
    (theme.at? (c :: path)).getD .null =
      ((extensions.findSome? (Data.present? path)).or (base.bind (Data.at? path))).getD .null ∧
    (theme.at? (c :: path) = none ↔ ∀ d ∈ base.toList ++ extensions, d.at? path = none) ∧
    ∀ front, front <+: path →
      (∃ d ∈ base.toList ++ extensions, ∃ members, d.at? front = some (.object members)) →
      ∃ members, theme.at? (c :: front) = some (.object members) ∧
        Keyed.keys members =
          ((base.toList ++ extensions.reverse).flatMap (Data.keysAt front)).eraseDups := by
  intro theme
  set values := base.toList ++ extensions.reverse with hvalues
  have hmem : ∀ {d}, d ∈ values ↔ d ∈ base.toList ++ extensions := by simp [hvalues]
  have hleads : ∀ d ∈ values, d.LeadsToScalar path := fun d hd => hpath d (hmem.mp hd)
  by_cases hne : values = []
  · obtain ⟨rfl, rfl⟩ : base = none ∧ extensions = [] := by simpa [hvalues] using hne
    have habsent : theme.member? c = none :=
      member?_theme_of_absent ((lookup_categories_eq_none_iff _ c).mpr hdeclared.pieces)
    simp [Data.at?, habsent]
  have htheme : ∀ front, theme.at? (c :: front) = (values.foldl Data.merge .null).at? front :=
    at?_theme_of_data hdeclared.pieces hne
  obtain ⟨hvalue, hnone⟩ := Data.at?_foldl_merge_of_leadsToScalar hleads hne
  refine ⟨?_, ?_, fun front hfront hobject => ?_⟩
  · have hlast : values.reverse.findSome? (Data.present? path) =
        (extensions.findSome? (Data.present? path)).or (base.bind (Data.present? path)) := by
      rw [hvalues, List.reverse_append, List.reverse_reverse, List.findSome?_append]
      cases base with
      | none => rfl
      | some d => simp
    rw [htheme, hvalue, hlast, Option.getD_or, Option.getD_or]
    cases base with
    | none => rfl
    | some d => rw [Option.bind_some, Option.bind_some, Data.getD_present?]
  · rw [htheme, hnone]
    exact forall_congr' fun d => imp_congr hmem Iff.rfl
  · obtain ⟨d, hd, hmembers⟩ := hobject
    rw [htheme]
    exact Data.keysAt_foldl_merge hleads hfront ⟨d, hmem.mpr hd, hmembers⟩

/-- A preset that defines and extends, a plugin whose configuration extends, and a layer on top
whose extension has `null` where the others have something. -/
theorem resolve_extended_layers :
    let object (x : Text) (value : Data) (others : List (Text × Data)) : Data :=
      .object [(['a'], .object ((x, value) :: others))]
    let base := object ['x'] (.text ['1']) [(['y'], .text ['1'])]
    let ofPreset := object ['z'] (.text ['2']) [(['x'], .text ['2'])]
    let ofPlugin := object ['w'] (.text ['3']) [(['x'], .text ['3'])]
    let ofUser := object ['x'] .null []
    let configs : List Config :=
      [⟨{ extend := [(['c'], .data ofUser)] },
        some [⟨{ theme := [(['c'], .data base)], extend := [(['c'], .data ofPreset)] }, some [], []⟩],
        [⟨{ extend := [(['c'], .data ofPlugin)] }, none, []⟩]⟩]
    let theme := (resolve configs).theme
    DeclaredAs (allLayers configs) ['c'] (some base) [ofUser, ofPlugin, ofPreset] ∧
      (theme.at? [['c'], ['a'], ['x']]).getD .null = .text ['3'] ∧
      ∃ members, theme.at? [['c'], ['a']] = some (.object members) ∧
        Keyed.keys members = [['x'], ['y'], ['z'], ['w']] := by
  intro object base ofPreset ofPlugin ofUser configs theme
  have hdeclared : DeclaredAs (allLayers configs) ['c'] (some base) [ofUser, ofPlugin, ofPreset] :=
    ⟨rfl, rfl, by decide⟩
  have hpath : ∀ d ∈ [base, ofUser, ofPlugin, ofPreset], d.LeadsToScalar [['a'], ['x']] := by
    intro d hd
    have hkeyed : ∀ d ∈ [base, ofUser, ofPlugin, ofPreset], Keyed.Distinct d.members ∧
        ∀ entry ∈ d.members, Data.Flat entry.2 ∧ Keyed.Distinct entry.2.members := by decide
    have halong : ∀ d ∈ [base, ofUser, ofPlugin, ofPreset], d.OpenAlong [['a'], ['x']] ∧
        ∀ value ∈ d.at? [['a'], ['x']], value.IsScalar := by decide
    obtain ⟨hdistinct, hmembers⟩ := hkeyed d hd
    obtain ⟨hopen, hscalar⟩ := halong d hd
    refine ⟨Data.wellKeyed_of_members hdistinct fun entry hentry => ?_, hopen, hscalar⟩
    exact (hmembers entry hentry).1.wellKeyed (hmembers entry hentry).2
  obtain ⟨hvalue, -, hkeys⟩ := resolve_extended configs hdeclared hpath
  refine ⟨hdeclared, hvalue.trans (by decide), ?_⟩
  obtain ⟨members, hmembers, hnames⟩ :=
    hkeys [['a']] ⟨[['x']], rfl⟩ ⟨base, List.mem_cons_self, _, rfl⟩
  exact ⟨members, hmembers, hnames.trans (by decide)⟩

end Config
end UtilityCss
