import UtilityCss.Config.Resolve
import UtilityCss.Proofs.Json.Merge

/-!
# The pieces of a category

Merging layers builds the table of categories entry by entry: definitions first, then the
extensions of every layer over them.  What the table holds under a name in the end has a plain
description.  The pieces of a category are its definition in the first layer that has
one, and the extensions in all layers, the layer that counts least first; the table holds the
pieces merged.

A merged category is a query again.  It asks what its pieces ask, and it comes to the merge
of what they come to.
-/

namespace UtilityCss

/-! ## Queries with given answers -/

namespace Query

variable {α β : Type} {look : Text → Option Data}

/-- What a query comes to with these answers. -/
def answerFrom (look : Text → Option Data) : Query α → α
  | answer a => a
  | lookup path next => answerFrom look (next (look path))

/-- With these answers the query asks for the path. -/
inductive Asks (look : Text → Option Data) : Query α → Text → Prop where
  | now {path : Text} {next : Option Data → Query α} : Asks look (lookup path next) path
  | later {path other : Text} {next : Option Data → Query α} :
    Asks look (next (look path)) other → Asks look (lookup path next) other

theorem not_asks_answer {a : α} {path : Text} : ¬ Asks look (answer a) path := nofun

theorem answerFrom_bind (f : α → Query β) : ∀ q : Query α,
    (q >>= f).answerFrom look = (f (q.answerFrom look)).answerFrom look
  | answer _ => rfl
  | lookup path next => answerFrom_bind f (next (look path))

/-- What a query asks and what follows it asks. -/
theorem Asks.of_bind {f : α → Query β} {path : Text} : ∀ {q : Query α},
    Asks look (q >>= f) path → Asks look q path ∨ Asks look (f (q.answerFrom look)) path
  | answer _, h => Or.inr h
  | lookup _ _, .now => Or.inl .now
  | lookup _ next, .later h => (of_bind (q := next _) h).imp .later id

theorem answerFrom_all : ∀ qs : List (Query α),
    (all qs).answerFrom look = qs.map (answerFrom look)
  | [] => rfl
  | q :: rest => by
    rw [all, answerFrom_bind, answerFrom_bind, answerFrom_all rest]
    rfl

theorem Asks.of_all {path : Text} : ∀ {qs : List (Query α)},
    Asks look (all qs) path → ∃ q ∈ qs, Asks look q path
  | [], h => absurd h not_asks_answer
  | q :: rest, h => by
    rw [all] at h
    rcases h.of_bind with h | h
    · exact ⟨q, List.mem_cons_self, h⟩
    · rcases h.of_bind with h | h
      · obtain ⟨q', hq', hasks⟩ := of_all h
        exact ⟨q', List.mem_cons_of_mem _ hq', hasks⟩
      · exact absurd h not_asks_answer

/-- Answers are there without a question. -/
theorem all_map_answer : ∀ values : List α, all (values.map answer) = answer values
  | [] => rfl
  | value :: rest => by
    rw [List.map_cons, all, all_map_answer rest]
    rfl

/-- The query that merges what queries come to. -/
def merged (qs : List (Query Data)) : Query Data :=
  all qs >>= fun values => answer (values.foldl Data.merge .null)

theorem merged_singleton : ∀ q : Query Data, merged [q] = q
  | answer d => congrArg answer (Data.null_merge d)
  | lookup path next => congrArg (lookup path) (funext fun found => merged_singleton (next found))

theorem merged_map_answer (values : List Data) :
    merged (values.map answer) = answer (values.foldl Data.merge .null) := by
  rw [merged, all_map_answer]
  rfl

theorem answerFrom_merged (qs : List (Query Data)) : (merged qs).answerFrom look =
    (qs.map (answerFrom look)).foldl Data.merge .null := by
  rw [merged, answerFrom_bind, answerFrom_all]
  rfl

theorem Asks.of_merged {path : Text} {qs : List (Query Data)} (h : Asks look (merged qs) path) :
    ∃ q ∈ qs, Asks look q path :=
  h.of_bind.elim of_all fun hasks => absurd hasks not_asks_answer

end Query

namespace ThemeValue

/-- Pieces none of which is a function are data. -/
theorem exists_data_of_not_isComputed : ∀ pieces : List ThemeValue,
    pieces.any isComputed = false → ∃ values, pieces = List.map data values
  | [], _ => ⟨[], rfl⟩
  | .computed _ :: _, h => absurd h Bool.noConfusion
  | .data value :: rest, h => by
    obtain ⟨values, hvalues⟩ := exists_data_of_not_isComputed rest h
    exact ⟨value :: values, congrArg _ hvalues⟩

/-- Merged pieces are the merge of their queries, whether or not there is a function among them. -/
theorem query_merged (pieces : List ThemeValue) :
    (merged pieces).query = Query.merged (pieces.map query) := by
  unfold merged
  split <;> rename_i hany
  · rfl
  · obtain ⟨values, rfl⟩ := exists_data_of_not_isComputed _ (Bool.eq_false_iff.mpr hany)
    have hquery : (values.map data).map query = values.map .answer := List.map_map
    rw [hquery, Query.merged_map_answer, List.map_map]
    exact congrArg (fun values => Query.answer (values.foldl Data.merge .null)) (List.map_id values)

end ThemeValue

/-! ## What the table of categories holds -/

namespace Resolve

/-- The definition of a category in the first layer that has one. -/
def base? (layers : List Layer) (c : Text) : Option ThemeValue :=
  layers.findSome? fun layer => layer.theme.lookup c

/-- The extensions of a category, those of the layer that counts least first. -/
def additions (layers : List Layer) (c : Text) : List ThemeValue :=
  layers.reverse.flatMap fun layer =>
    (layer.extend.filter fun entry => entry.1 = c).map Prod.snd

/-- The pieces of a category: its definition and its extensions. -/
def pieces (layers : List Layer) (c : Text) : List ThemeValue :=
  (base? layers c).toList ++ additions layers c

variable (layers : List Layer) (c : Text)

theorem lookup_flatMap_theme : (layers.flatMap Layer.theme).lookup c = base? layers c := by
  induction layers with
  | nil => rfl
  | cons layer rest ih =>
    rw [List.flatMap_cons, List.lookup_append, ih, base?, base?, List.findSome?_cons]
    cases layer.theme.lookup c <;> rfl

theorem lookup_defined : (defined layers).lookup c = base? layers c := by
  rw [← lookup_flatMap_theme, defined, ← List.foldl_flatMap, Keyed.lookup_foldl_define]
  rfl

theorem extensions_eq :
    extensions layers =
      (layers.reverse.flatMap Layer.extend).foldl
        (fun table entry =>
          Keyed.put entry.1 ((table.lookup entry.1).getD [] ++ [entry.2]) table) [] := by
  rw [List.foldl_flatMap]
  rfl

theorem filter_extend :
    ((layers.reverse.flatMap Layer.extend).filter fun entry => entry.1 = c).map Prod.snd =
      additions layers c := by
  rw [List.filter_flatMap, List.map_flatMap]
  rfl

theorem lookup_extensions :
    (extensions layers).lookup c =
      if additions layers c = [] then none else some (additions layers c) := by
  rw [extensions_eq, Keyed.lookup_foldl_append, filter_extend]
  rfl

theorem distinct_extensions : Keyed.Distinct (extensions layers) := by
  rw [extensions_eq]
  exact Keyed.distinct_foldl (fun _ _ h => h.put _ _) _ Keyed.distinct_nil

theorem distinct_defined : Keyed.Distinct (defined layers) := by
  rw [defined, ← List.foldl_flatMap]
  refine Keyed.distinct_foldl (fun table entry h => ?_) _ Keyed.distinct_nil
  split
  · exact h
  · exact h.put _ _

/-- No category stands in the table twice. -/
theorem distinct_categories : Keyed.Distinct (categories layers) :=
  Keyed.distinct_foldl (fun _ _ h => h.put _ _) _ (distinct_defined layers)

theorem keys_defined :
    Keyed.keys (defined layers) = (Keyed.keys (layers.flatMap Layer.theme)).eraseDups := by
  rw [defined, ← List.foldl_flatMap]
  refine Keyed.keys_foldl_nil (fun table entry => ?_) _
  simp only [Keyed.has_iff_mem_keys]
  split
  · rfl
  · rename_i hnew
    rw [Keyed.keys_put, if_neg hnew]

theorem keys_extensions : Keyed.keys (extensions layers) =
    (Keyed.keys (layers.reverse.flatMap Layer.extend)).eraseDups := by
  rw [extensions_eq]
  exact Keyed.keys_foldl_nil (fun table entry => Keyed.keys_put entry.1 _ table) _

/-- The categories that are defined come first, where they were first, and then those that are only
extended. -/
theorem keys_categories : Keyed.keys (categories layers) =
    (Keyed.keys (layers.flatMap Layer.theme)).eraseDups ++
      ((Keyed.keys (layers.reverse.flatMap Layer.extend)).eraseDups).filter
        (· ∉ (Keyed.keys (layers.flatMap Layer.theme)).eraseDups) := by
  rw [← keys_defined, ← keys_extensions]
  exact Keyed.keys_foldl_put (distinct_extensions layers)
    (fun definition more => ThemeValue.merged (definition.toList ++ more)) _

/-- A category without extensions is its definition, another one is its pieces merged. -/
theorem lookup_categories :
    (categories layers).lookup c =
      if additions layers c = [] then base? layers c else some (.merged (pieces layers c)) := by
  refine (Keyed.lookup_foldl_put (distinct_extensions layers)
    (fun definition more => ThemeValue.merged (definition.toList ++ more)) _).trans ?_
  rw [lookup_extensions, lookup_defined]
  split <;> rfl

/-- The table holds what has pieces. -/
theorem lookup_categories_eq_none_iff :
    (categories layers).lookup c = none ↔ pieces layers c = [] := by
  rw [lookup_categories, pieces, List.append_eq_nil_iff, Option.toList_eq_nil_iff]
  split <;> simp [*]

variable {layers c} {look : Text → Option Data} {category : ThemeValue}

theorem exists_category (h : pieces layers c ≠ []) :
    ∃ category, (categories layers).lookup c = some category :=
  Option.ne_none_iff_exists'.mp (mt (lookup_categories_eq_none_iff layers c).mp h)

/-- A category is the merge of the queries that its pieces are. -/
theorem query_category (h : (categories layers).lookup c = some category) :
    category.query = Query.merged ((pieces layers c).map ThemeValue.query) := by
  rw [lookup_categories] at h
  split at h
  · rename_i hnone
    rw [pieces, hnone, h]
    exact (Query.merged_singleton _).symm
  · rw [← Option.some.inj h]
    exact ThemeValue.query_merged _

theorem map_query_categories (layers : List Layer) (c : Text) :
    ((categories layers).lookup c).map ThemeValue.query =
      if pieces layers c = [] then none
      else some (Query.merged ((pieces layers c).map ThemeValue.query)) := by
  split <;> rename_i hpieces
  · rw [(lookup_categories_eq_none_iff layers c).mpr hpieces]
    rfl
  · obtain ⟨category, hcategory⟩ := exists_category hpieces
    rw [hcategory, ← query_category hcategory]
    rfl

/-- A category comes to the merge of what its pieces come to. -/
theorem answerFrom_category (h : (categories layers).lookup c = some category) :
    category.query.answerFrom look =
      ((pieces layers c).map fun piece => piece.query.answerFrom look).foldl Data.merge
        .null := by
  rw [query_category h, Query.answerFrom_merged, List.map_map]
  rfl

/-- A category asks nothing but what one of its pieces asks. -/
theorem asks_of_category (h : (categories layers).lookup c = some category) {path : Text}
    (hasks : category.query.Asks look path) :
    ∃ piece ∈ pieces layers c, piece.query.Asks look path := by
  rw [query_category h] at hasks
  obtain ⟨q, hq, hasks⟩ := hasks.of_merged
  obtain ⟨piece, hpiece, rfl⟩ := List.mem_map.mp hq
  exact ⟨piece, hpiece, hasks⟩

end Resolve
end UtilityCss
