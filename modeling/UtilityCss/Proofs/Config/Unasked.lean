import UtilityCss.Proofs.Config.Consistency

/-!
# Categories that nobody asks for

Where categories ask for one another in a circle some answers are missing, and which of them are
depends on where the evaluation begins.  A category that none asks for stands outside of all
circles.  It is evaluated for its own sake alone, and then what it asks for has a value or is
given the one that is kept.  So it is told what the theme has, whatever circles there are elsewhere.

Data have the same value in every circle.
-/

namespace UtilityCss

namespace Query

variable {α β : Type} {p : Text → Prop}

/-- Whatever it is told, the query asks for such categories only, and for what is in them. -/
def AsksOnly (p : Text → Prop) : Query α → Prop
  | answer _ => True
  | lookup path next =>
    (∀ first ∈ (Path.read? path).bind List.head?, p first) ∧ ∀ found, AsksOnly p (next found)

theorem asksOnly_bind {f : α → Query β} (hf : ∀ a, AsksOnly p (f a)) : ∀ {q : Query α},
    AsksOnly p q → AsksOnly p (q >>= f)
  | answer a, _ => hf a
  | lookup _ _, ⟨hpath, hnext⟩ => ⟨hpath, fun found => asksOnly_bind hf (hnext found)⟩

theorem asksOnly_all : ∀ {qs : List (Query α)}, (∀ q ∈ qs, AsksOnly p q) → AsksOnly p (all qs)
  | [], _ => trivial
  | q :: rest, h => by
    obtain ⟨hq, hrest⟩ := List.forall_mem_cons.mp h
    rw [all]
    refine asksOnly_bind (fun _ => asksOnly_bind (fun _ => ?_) (asksOnly_all hrest)) hq
    trivial

theorem asksOnly_merged {qs : List (Query Data)} (h : ∀ q ∈ qs, AsksOnly p q) :
    AsksOnly p (merged qs) := by
  have hmerge : ∀ values : List Data, AsksOnly p (answer (values.foldl Data.merge .null)) :=
    fun _ => trivial
  exact asksOnly_bind hmerge (asksOnly_all h)

theorem asksOnly_of_forall (h : ∀ c, p c) : ∀ q : Query α, AsksOnly p q
  | answer _ => trivial
  | lookup _ next => ⟨fun first _ => h first, fun found => asksOnly_of_forall h (next found)⟩

end Query

namespace Resolve

variable {table : Categories} {c : Text} {known final : List (Text × Data)}

/-- Values have been added in any case. -/
theorem Grown.of_active {active : List Text} {known' : List (Text × Data)}
    (h : Grown table active known known') : Grown table [] known known' :=
  ⟨h.kept, fun _ hmem => absurd hmem List.not_mem_nil, h.absent⟩

/-! ## What evaluation leaves alone -/

/-- What the answers to a query preserve, the query preserves. -/
theorem run_preserves {α : Type} {p : Text → Prop} {P : List (Text × Data) → Prop}
    {answerTo : Text → List (Text × Data) → Option Data × List (Text × Data)}
    (hstep : ∀ path, (∀ first ∈ (Path.read? path).bind List.head?, p first) → ∀ known, P known →
      P (answerTo path known).2) :
    ∀ (q : Query α) (known : List (Text × Data)), q.AsksOnly p → P known →
      P (q.run answerTo known).2
  | .answer _, _, _, h => h
  | .lookup path next, known, ⟨hpath, hnext⟩, h =>
    run_preserves hstep (next _) _ (hnext _) (hstep path hpath known h)

/-- What keeping a value preserves, for each of the categories that may be asked for, is preserved
by evaluating one of them. -/
theorem value?_preserves {p : Text → Prop} {P : List (Text × Data) → Prop}
    (hasks : ∀ name category, table.lookup name = some category → category.query.AsksOnly p)
    (hput : ∀ {name category answerTo known known' value}, p name →
      table.lookup name = some category → category.query.run answerTo known = (value, known') →
      P known' → P (Keyed.put name value known')) :
    ∀ (fuel : Nat) (active : List Text) (name : Text) (known : List (Text × Data)), p name →
      P known → P (value? table fuel active name known).2
  | 0, _, _, _, _, h => h
  | fuel + 1, active, name, known, hname, h => by
    generalize hresult : value? table (fuel + 1) active name known = result
    cases outcome_of_value? hresult with
    | kept => exact h
    | absent => exact h
    | circular => exact h
    | @evaluated category value known' hknown htable hactive hrun =>
      have hask : ∀ path, (∀ first ∈ (Path.read? path).bind List.head?, p first) → ∀ known,
          P known → P (ask table fuel (name :: active) path known).2 := by
        intro path hpath known h
        unfold ask
        split
        · rename_i first rest hread
          refine value?_preserves hasks hput fuel _ first known (hpath first ?_) h
          rw [hread]
          rfl
        · exact h
      have hrun' := run_preserves hask category.query known (hasks name category htable) h
      rw [hrun] at hrun'
      exact hput hname htable hrun hrun'

/-! ## Data -/

/-- A category that is data has it for its value, whatever else there is. -/
theorem member?_theme_of_answer {category : ThemeValue} {d : Data}
    (htable : table.lookup c = some category) (hanswer : category.query = .answer d) :
    (theme table).member? c = some d := by
  let IsData (known : List (Text × Data)) : Prop := ∀ x, known.lookup c = some x → x = d
  have hvalue : ∀ name known, IsData known →
      IsData (value? table (table.length + 1) [] name known).2 := by
    intro name known h
    refine value?_preserves (p := fun _ => True) (fun _ _ _ => Query.asksOnly_of_forall
      (fun _ => trivial) _) ?_ _ _ name known trivial h
    intro name own answerTo known known' value _ hown hrun h x hx
    by_cases hname : c = name
    · subst hname
      obtain rfl := Option.some.inj (htable.symm.trans hown)
      rw [hanswer] at hrun
      rw [Keyed.lookup_put_self] at hx
      exact (Option.some.inj hx).symm.trans (Prod.mk.inj hrun).1.symm
    · rw [Keyed.lookup_put_of_ne hname] at hx
      exact h x hx
  have hkept : ∀ names known, IsData known → IsData (keptAfter table names known) := by
    intro names
    induction names with
    | nil => exact fun _ h => h
    | cons name rest ih => exact fun known h => ih _ (hvalue name known h)
  have hsome := keptAfter_ne_none htable [] (Keyed.mem_keys_of_lookup htable)
  obtain ⟨x, hx⟩ := Option.ne_none_iff_exists'.mp hsome
  rw [member?_theme, hx, hkept _ [] (fun x hx => by cases hx) x hx]

/-! ## Categories that nobody asks for -/

/-- No category of the table asks for this one. -/
def Unasked (table : Categories) (c : Text) : Prop :=
  ∀ name category, table.lookup name = some category → category.query.AsksOnly (· ≠ c)

/-- No category does if no entry of a layer does. -/
theorem unasked_categories {layers : List Layer}
    (h : ∀ layer ∈ layers, ∀ entry ∈ layer.theme ++ layer.extend, entry.2.query.AsksOnly (· ≠ c)) :
    Unasked (categories layers) c := by
  intro name category hcategory
  rw [query_category hcategory]
  refine Query.asksOnly_merged (List.forall_mem_map.mpr fun piece hpiece => ?_)
  obtain ⟨layer, hlayer, hentry⟩ := mem_pieces hpiece
  exact h layer hlayer (name, piece) (List.mem_append.mpr hentry)

/-- Evaluating another category gives it no value. -/
theorem lookup_value?_of_unasked (hunasked : Unasked table c) (fuel : Nat) (active : List Text)
    {name : Text} (hname : name ≠ c) (known : List (Text × Data)) :
    (value? table fuel active name known).2.lookup c = known.lookup c := by
  refine value?_preserves (p := (· ≠ c)) (P := fun k => k.lookup c = known.lookup c) hunasked ?_
    fuel active name known hname rfl
  intro name category answerTo before known' value hname _ _ h
  exact (Keyed.lookup_put_of_ne (Ne.symm hname) value known').trans h

/-- While it alone is being evaluated, a question about others is answered with what is kept in the
end. -/
theorem ask_of_ne {fuel : Nat} {path : Text}
    (hpath : ∀ first ∈ (Path.read? path).bind List.head?, first ≠ c)
    (hfinal : Grown table [] (ask table (fuel + 1) [c] path known).2 final) :
    (ask table (fuel + 1) [c] path known).1 = answerIn (fun name => final.lookup name) path := by
  unfold ask at hfinal ⊢
  unfold answerIn
  split
  · rename_i first rest hread
    have hfirst : first ≠ c := hpath first (by rw [hread]; rfl)
    rw [hread] at hfinal
    dsimp only at hfinal ⊢
    congr 1
    generalize hresult : value? table (fuel + 1) [c] first known = result at hfinal ⊢
    cases outcome_of_value? hresult with
    | kept hknown => exact (hfinal.kept hknown).symm
    | absent hknown htable => exact (hknown.symm.trans (hfinal.absent htable).symm)
    | circular _ hmem => exact absurd (List.mem_singleton.mp hmem) hfirst
    | evaluated => exact (hfinal.kept (Keyed.lookup_put_self _ _ _)).symm
  · rfl

theorem run_of_asksOnly {α : Type} {fuel : Nat} : ∀ (q : Query α) (known : List (Text × Data)),
    q.AsksOnly (· ≠ c) → Grown table [] (q.run (ask table (fuel + 1) [c]) known).2 final →
      (q.run (ask table (fuel + 1) [c]) known).1 =
        q.answerFrom (answerIn fun name => final.lookup name)
  | .answer _, _, _, _ => rfl
  | .lookup path next, known, ⟨hpath, hnext⟩, hfinal => by
    have hask := grown_ask (@grown_value? table (fuel + 1) [c])
    have hstep : (Query.lookup path next).run (ask table (fuel + 1) [c]) known =
        (next (ask table (fuel + 1) [c] path known).1).run (ask table (fuel + 1) [c])
          (ask table (fuel + 1) [c] path known).2 := rfl
    rw [hstep] at hfinal ⊢
    have hanswer := ask_of_ne hpath ((grown_run hask _ _).of_active.trans hfinal)
    rw [run_of_asksOnly _ _ (hnext _) hfinal, hanswer]
    rfl

/-- A category that nobody asks for is told what the theme has. -/
theorem member?_theme_of_unasked (hunasked : Unasked table c) {category : ThemeValue}
    (htable : table.lookup c = some category) :
    (theme table).member? c =
      some (category.query.answerFrom (answerIn fun name => (theme table).member? name)) := by
  let final := keptAfter table (Keyed.keys table) []
  let told (known : List (Text × Data)) : Prop := ∀ x, known.lookup c = some x →
    x = category.query.answerFrom (answerIn fun name => final.lookup name)
  obtain ⟨fuel, hfuel⟩ : ∃ fuel, table.length = fuel + 1 :=
    Nat.exists_eq_succ_of_ne_zero (mt List.length_eq_zero_iff.mp (by rintro rfl; cases htable))
  have hvalue : ∀ name known, Grown table [] (value? table (table.length + 1) [] name known).2
      final → told known → told (value? table (table.length + 1) [] name known).2 := by
    intro name known hfinal h
    by_cases hname : name = c
    · subst hname
      generalize hresult : value? table (table.length + 1) [] name known = result at hfinal ⊢
      cases outcome_of_value? hresult with
      | kept => exact h
      | absent => exact h
      | circular => exact h
      | @evaluated own value known' hknown hown hactive hrun =>
        obtain rfl := Option.some.inj (htable.symm.trans hown)
        rw [hfuel] at hrun
        have hask := grown_ask (@grown_value? table (fuel + 1) [name])
        have hgrown := grown_run hask category.query known
        have hanswer : Grown table [] (category.query.run (ask table (fuel + 1) [name]) known).2
            final → _ := run_of_asksOnly category.query known (hunasked name category htable)
        rw [hrun] at hgrown hanswer
        have hnone : known'.lookup name = none :=
          (hgrown.active name List.mem_cons_self).trans hknown
        intro x hx
        rw [Keyed.lookup_put_self] at hx
        rw [← Option.some.inj hx]
        exact hanswer ((Grown.refl.put hnone htable hactive).trans hfinal)
    · intro x hx
      rw [lookup_value?_of_unasked hunasked _ _ hname] at hx
      exact h x hx
  have hkept : ∀ names known, Grown table [] (keptAfter table names known) final → told known →
      told (keptAfter table names known) := by
    intro names
    induction names with
    | nil => exact fun _ _ h => h
    | cons name rest ih =>
      intro known hfinal h
      exact ih _ hfinal (hvalue name known ((grown_keptAfter rest _).trans hfinal) h)
  have hsome := keptAfter_ne_none htable [] (Keyed.mem_keys_of_lookup htable)
  obtain ⟨x, hx⟩ := Option.ne_none_iff_exists'.mp hsome
  have htold := hkept _ [] .refl (fun x hx => by cases hx) x hx
  have hmember : (fun name => (theme table).member? name) = fun name => final.lookup name :=
    funext (member?_theme table)
  rw [hmember, member?_theme, hx, htold]

end Resolve
end UtilityCss
