import UtilityCss.Proofs.Value.ColorCall

/-!
# Channels of a call

The channels of a call are meant to be its terms: what stands in front of the slash at the top
level, between the commas there, or between the blanks if there is no comma.  They are looked for
differently, at the first slash and at all commas, whether or not these are nested in a channel.  So
the terms are found as long as nothing of the kind is nested in them, and the first term in which
there is becomes another channel than it should be.
-/

namespace UtilityCss

/-! ## Lists that go together for a while -/

/-- Two lists go together up to the first element of the second that is no good, and where they
part the first has a good one. -/
def AgreeWhile {α : Type} (good : α → Prop) (as bs : List α) : Prop :=
  ∃ xs, (∀ x ∈ xs, good x) ∧
    (as = xs ∧ bs = xs ∨ ∃ y ys z zs, as = xs ++ y :: ys ∧ bs = xs ++ z :: zs ∧ good y ∧ ¬good z)

/-- They have a beginning in common exactly if it is good in the second, which is as far as both
of them go together. -/
theorem AgreeWhile.exists_length {α : Type} {good : α → Prop} {as bs : List α}
    (h : AgreeWhile good as bs) : ∃ k, k ≤ as.length ∧
      (∀ n (rest : List α), n ≤ (as ++ rest).length → ((as ++ rest).take n = bs.take n ↔ n ≤ k)) ∧
        ∀ n, (n ≤ bs.length ∧ ∀ b ∈ bs.take n, good b) ↔ n ≤ k := by
  obtain ⟨xs, hxs, ⟨has, hbs⟩ | ⟨y, ys, z, zs, rfl, rfl, hy, hz⟩⟩ := h
  · rw [has, hbs]
    refine ⟨xs.length, Nat.le_refl _, fun n rest hn => ⟨fun heq => ?_, fun hle => ?_⟩, fun n => ?_⟩
    · have hlength := congrArg List.length heq
      rw [List.length_take, List.length_take] at hlength
      omega
    · rw [List.take_append_of_le_length hle]
    · exact and_iff_left fun b hb => hxs b (List.mem_of_mem_take hb)
  · have hlast : ∀ rest : List α, (xs ++ z :: rest)[xs.length]? = some z := fun rest => by
      rw [List.getElem?_append_right (Nat.le_refl _), Nat.sub_self, List.getElem?_cons_zero]
    refine ⟨xs.length, by simp, fun n rest _ => ⟨fun heq => ?_, fun hle => ?_⟩,
      fun n => ⟨fun h => ?_, fun hle => ?_⟩⟩
    · -- otherwise the elements at which they part would be equal
      by_contra hlt
      have hat := congrArg (fun l => l[xs.length]?) heq
      simp only [List.getElem?_take, if_pos (Nat.lt_of_not_le hlt), hlast] at hat
      rw [List.append_assoc, List.getElem?_append_right (Nat.le_refl _), Nat.sub_self,
        List.cons_append, List.getElem?_cons_zero] at hat
      exact hz (Option.some.inj hat ▸ hy)
    · rw [List.append_assoc, List.take_append_of_le_length hle, List.take_append_of_le_length hle]
    · by_contra hlt
      refine hz (h.2 z (List.mem_of_getElem? (i := xs.length) ?_))
      rw [List.getElem?_take, if_pos (Nat.lt_of_not_le hlt), hlast]
    · refine ⟨Nat.le_trans hle (by simp), fun b hb => ?_⟩
      rw [List.take_append_of_le_length hle] at hb
      exact hxs b (List.mem_of_mem_take hb)

theorem agreeWhile_congr {α : Type} {good good' : α → Prop} {as bs : List α}
    (h : ∀ a, good a ↔ good' a) : AgreeWhile good as bs → AgreeWhile good' as bs := by
  obtain rfl : good = good' := funext fun a => propext (h a)
  exact id

namespace Value

open Split (Whole atTop State)

/-! ## The terms of a call -/

/-- What stands in front of the slash at the top level. -/
def callFront (arguments : Text) : Text := (Split.atChar '/' arguments).headD []

/-- Are the terms separated by commas? -/
def hasCommas (arguments : Text) : Bool := 1 < (Split.atChar ',' (callFront arguments)).length

/-- The terms in front of the slash: what the commas at the top level separate, without the
blanks around it, and what blanks separate if there are no such commas. -/
def callTerms (arguments : Text) : List Text :=
  if hasCommas arguments then
    ((Split.atChar ',' (callFront arguments)).map Text.trim).filter fun term => !term.isEmpty
  else Split.terms (callFront arguments)

/-- The terms that are to become the channels are there, and nothing of what channels are told
apart by is nested in them. -/
structure Unnested (arguments : Text) (count : Nat) : Prop where
  enough : count ≤ (callTerms arguments).length
  balanced : ∀ term ∈ (callTerms arguments).take count, Split.Balanced term
  slash : ∀ term ∈ (callTerms arguments).take count, '/' ∉ term
  comma : if hasCommas arguments then ∀ term ∈ (callTerms arguments).take count, ',' ∉ term
    else ',' ∉ beforeSlash arguments

instance (arguments : Text) (count : Nat) : Decidable (Unnested arguments count) :=
  decidable_of_iff (count ≤ (callTerms arguments).length ∧
      (∀ term ∈ (callTerms arguments).take count, Split.Balanced term) ∧
      (∀ term ∈ (callTerms arguments).take count, '/' ∉ term) ∧
      if hasCommas arguments then ∀ term ∈ (callTerms arguments).take count, ',' ∉ term
        else ',' ∉ beforeSlash arguments)
    ⟨fun h => ⟨h.1, h.2.1, h.2.2.1, h.2.2.2⟩, fun h => ⟨h.enough, h.balanced, h.slash, h.comma⟩⟩

/-! ## Reading along the parts -/

/-- A way to prepare parts, by taking away nothing but blanks. -/
structure Prepares (f : Text → Text) : Prop where
  mem : ∀ {t x}, x ∈ f t → x ∈ t
  keeps : ∀ {t x}, x ∈ t → Text.isBlank x = false → x ∈ f t

theorem prepares_id : Prepares id := ⟨fun h => h, fun h _ => h⟩

theorem prepares_trim : Prepares Text.trim :=
  ⟨fun h => (Text.trim_infix _).subset h, fun h hx => mem_trim hx h⟩

/-- Behind a text of which nothing is left the level is the one in front of it. -/
theorem Prepares.after_eq_top {f : Text → Text} (hf : Prepares f) {t : Text} (h : f t = []) :
    State.top.after t = .top := by
  refine State.after_plain fun c hc => Split.isPlain_of_isBlank ?_
  by_contra hblank
  have hmem := hf.keeps hc (Bool.eq_false_iff.mpr hblank)
  rw [h] at hmem
  exact List.not_mem_nil hmem

/-- The parts that are left after each has been prepared. -/
def preparedParts (f : Text → Text) (parts : List Text) : List Text :=
  (parts.map f).filter fun part => !part.isEmpty

theorem terms_eq_preparedParts (t : Text) :
    Split.terms t = preparedParts id (atTop Text.isBlank t) := by
  rw [preparedParts, List.map_id, Split.terms]

/-- A reader of texts that end with `tail` finds the parts of what is in front of it, as long as
no character of the class `bad` is in them, and at the first such character ends a part. -/
structure ReadsParts (p bad : Char → Bool) (tail : Text) (read : Text → List Text) : Prop where
  last : ∀ {u}, Whole p u → (∀ x ∈ u, bad x = false) → read (u ++ tail) = [u]
  next : ∀ {u c v}, Whole p u → State.top.after u = .top → p c = true →
    Brackets.isPlain c = true → (∀ x ∈ u, bad x = false) → read (u ++ c :: v) = u :: read v
  stop : ∀ {u c v}, Whole p (u ++ c :: v) → (∀ x ∈ u, bad x = false) → bad c = true →
    ∀ rest, ∃ parts, read (u ++ c :: rest) = u :: parts

namespace ReadsParts

variable {p bad : Char → Bool} {tail : Text} {read : Text → List Text}

/-- Up to the first part with a bad character, the parts are read. -/
theorem exists_parts (h : ReadsParts p bad tail read) (front : Text) :
    ∃ us, (∀ u ∈ us, ∀ x ∈ u, bad x = false) ∧
      (read (front ++ tail) = us ∧ atTop p front = us ∨ ∃ u c v parts rest,
        read (front ++ tail) = us ++ u :: parts ∧ atTop p front = us ++ (u ++ c :: v) :: rest ∧
          (∀ x ∈ u, bad x = false) ∧ bad c = true) := by
  induction front using Split.atTop_induction p with
  | whole t ht hparts =>
    rcases Text.exists_first bad t with hgood | ⟨u, c, v, rfl, hc, hu⟩
    · exact ⟨[t], List.forall_mem_singleton.mpr hgood, .inl ⟨h.last ht hgood, hparts⟩⟩
    · obtain ⟨parts, hread⟩ := h.stop ht hu hc (v ++ tail)
      refine ⟨[], fun u hu => absurd hu List.not_mem_nil,
        .inr ⟨u, c, v, parts, [], ?_, hparts, hu, hc⟩⟩
      rw [List.append_assoc, List.cons_append, hread]
      rfl
  | split t s w ht htop hs hplain hparts ih =>
    rcases Text.exists_first bad t with hgood | ⟨u, c, v, rfl, hc, hu⟩
    · have hread : read (t ++ s :: w ++ tail) = t :: read (w ++ tail) := by
        rw [List.append_assoc, List.cons_append, h.next ht htop hs hplain hgood]
      obtain ⟨us, hus, ⟨hr, hp⟩ | ⟨u, c, v, parts, rest, hr, hp, hu, hc⟩⟩ := ih
      · refine ⟨t :: us, List.forall_mem_cons.mpr ⟨hgood, hus⟩, .inl ⟨?_, ?_⟩⟩
        · rw [hread, hr]
        · rw [hparts, hp]
      · refine ⟨t :: us, List.forall_mem_cons.mpr ⟨hgood, hus⟩,
          .inr ⟨u, c, v, parts, rest, ?_, ?_, hu, hc⟩⟩
        · rw [hread, hr, List.cons_append]
        · rw [hparts, hp, List.cons_append]
    · obtain ⟨parts, hread⟩ := h.stop ht hu hc (v ++ s :: w ++ tail)
      refine ⟨[], fun u hu => absurd hu List.not_mem_nil,
        .inr ⟨u, c, v, parts, atTop p w, ?_, hparts, hu, hc⟩⟩
      rw [List.nil_append, ← hread]
      simp

/-- What is read and the parts go together up to the first part with a bad character. -/
theorem agreeWhile (h : ReadsParts p bad tail read) {f : Text → Text} (hf : Prepares f)
    (hblank : ∀ c, bad c = true → Text.isBlank c = false) (front : Text)
    (hnested : ∀ u c v, u ++ c :: v ∈ atTop p front → bad c = true → State.top.after u ≠ .top) :
    AgreeWhile (fun t => ∀ x ∈ t, bad x = false) (preparedParts f (read (front ++ tail)))
      (preparedParts f (atTop p front)) := by
  obtain ⟨us, hus, hcases⟩ := h.exists_parts front
  refine ⟨preparedParts f us, fun t ht x hx => ?_, ?_⟩
  · obtain ⟨u, hu, rfl⟩ := List.mem_map.mp (List.mem_filter.mp ht).1
    exact hus u hu x (hf.mem hx)
  · rcases hcases with ⟨hread, hparts⟩ | ⟨u, c, v, parts, rest, hread, hparts, hu, hc⟩
    · exact .inl ⟨by rw [hread], by rw [hparts]⟩
    · have hmem : u ++ c :: v ∈ atTop p front := by simp [hparts]
      have hkept : ∀ {t : Text} {ts : List Text}, f t ≠ [] →
          preparedParts f (us ++ t :: ts) = preparedParts f us ++ f t :: preparedParts f ts := by
        intro t ts ht
        simp [preparedParts, ht]
      have hcmem : c ∈ f (u ++ c :: v) := hf.keeps (by simp) (hblank c hc)
      refine .inr ⟨f u, preparedParts f parts, f (u ++ c :: v), preparedParts f rest, ?_, ?_,
        fun x hx => hu x (hf.mem hx), fun hgood => ?_⟩
      · rw [hread, hkept fun hnil => hnested u c v hmem hc (hf.after_eq_top hnil)]
      · rw [hparts, hkept (List.ne_nil_of_mem hcmem)]
      · exact Bool.false_ne_true ((hgood c hcmem).symm.trans hc)

end ReadsParts

section Reading

variable {tail arguments : Text}

theorem beforeSlash_tail (htail : tail = [] ∨ ∃ alpha, tail = '/' :: alpha) :
    beforeSlash tail = [] := by
  rcases htail with rfl | ⟨alpha, rfl⟩
  · rfl
  · exact beforeSlash_slash [] alpha List.not_mem_nil

/-- Blanks are looked for at the top level, up to the first slash. -/
theorem readsParts_blank (htail : tail = [] ∨ ∃ alpha, tail = '/' :: alpha) :
    ReadsParts Text.isBlank (· = '/') tail fun t => atTop Text.isBlank (beforeSlash t) := by
  have hslash : ∀ {u : Text}, (∀ x ∈ u, decide (x = '/') = false) → '/' ∉ u := fun hu h => by
    simpa using hu '/' h
  refine ⟨fun {u} hwhole hu => ?_, fun {u c v} hwhole htop hc hplain hu => ?_,
    fun {u c v} hwhole hu hc rest => ?_⟩
  · rw [beforeSlash_append (hslash hu), beforeSlash_tail htail, List.append_nil]
    exact Split.atTop_eq_singleton_iff.mpr hwhole
  · have hne : c ≠ '/' := by
      rintro rfl
      exact absurd hc (by decide)
    rw [beforeSlash_append (hslash hu), beforeSlash_cons hne, Split.atTop_append hc hplain htop,
      Split.atTop_eq_singleton_iff.mpr hwhole, List.singleton_append]
  · obtain rfl : c = '/' := of_decide_eq_true hc
    exact ⟨[], by rw [beforeSlash_slash u rest (hslash hu),
      Split.atTop_eq_singleton_iff.mpr hwhole.of_append]⟩

/-- Commas are looked for everywhere, up to the first slash. -/
theorem readsParts_comma (htail : tail = [] ∨ ∃ alpha, tail = '/' :: alpha) :
    ReadsParts (· = ',') (fun c => c = '/' || c = ',') tail
      fun t => Text.pieces (· = ',') (beforeSlash t) := by
  have hslash : ∀ {u : Text}, (∀ x ∈ u, (decide (x = '/') || decide (x = ',')) = false) → '/' ∉ u :=
    fun hu h => by simpa using hu '/' h
  have hpieces : ∀ {u : Text}, (∀ x ∈ u, (decide (x = '/') || decide (x = ',')) = false) →
      Text.pieces (· = ',') u = [u] := fun hu =>
    Text.pieces_eq_singleton fun x hx => (Bool.or_eq_false_iff.mp (hu x hx)).2
  have hcomma : ∀ {u : Text}, (∀ x ∈ u, (decide (x = '/') || decide (x = ',')) = false) →
      ∀ v : Text, Text.pieces (· = ',') (beforeSlash (u ++ ',' :: v)) =
        u :: Text.pieces (· = ',') (beforeSlash v) := fun {u} hu v => by
    rw [beforeSlash_append (hslash hu), beforeSlash_cons (by decide),
      Text.pieces_append (by decide), hpieces hu, List.singleton_append]
  refine ⟨fun {u} _ hu => ?_, fun {u c v} _ _ hc _ hu => ?_, fun {u c v} _ hu hc rest => ?_⟩
  · rw [beforeSlash_append (hslash hu), beforeSlash_tail htail, List.append_nil]
    exact hpieces hu
  · obtain rfl : c = ',' := of_decide_eq_true hc
    exact hcomma hu v
  · rcases Bool.or_eq_true_iff.mp hc with hc | hc
    · obtain rfl : c = '/' := of_decide_eq_true hc
      exact ⟨[], by rw [beforeSlash_slash u rest (hslash hu), hpieces hu]⟩
    · obtain rfl : c = ',' := of_decide_eq_true hc
      exact ⟨_, hcomma hu rest⟩

/-- Behind what is in front of the slash at the top level there is that slash, or nothing. -/
theorem exists_callFront (arguments : Text) : Whole (· = '/') (callFront arguments) ∧
    ∃ tail, arguments = callFront arguments ++ tail ∧
      (tail = [] ∨ ∃ alpha, tail = '/' :: alpha) := by
  rcases Split.atTop_cases (· = '/') arguments with
    ⟨hwhole, hparts⟩ | ⟨u, c, v, harguments, hwhole, -, hc, -, hparts⟩
  · have hfront : callFront arguments = arguments := by rw [callFront, Split.atChar, hparts]; rfl
    exact ⟨hfront.symm ▸ hwhole, [], by rw [hfront, List.append_nil], .inl rfl⟩
  · have hfront : callFront arguments = u := by rw [callFront, Split.atChar, hparts]; rfl
    obtain rfl : c = '/' := of_decide_eq_true hc
    exact ⟨hfront.symm ▸ hwhole, '/' :: v, by rw [hfront, harguments], .inr ⟨v, rfl⟩⟩

theorem callFront_mem (arguments : Text) : callFront arguments ∈ Split.atChar '/' arguments := by
  obtain ⟨part, more, hparts⟩ := List.exists_cons_of_ne_nil
    (Split.parts_ne_nil (· = '/') .top arguments)
  rw [callFront, Split.atChar, atTop, hparts]
  exact List.mem_cons_self

/-- The first slash is the one at the top level, or stands in front of it. -/
theorem beforeSlash_prefix (arguments : Text) : beforeSlash arguments <+: callFront arguments := by
  obtain ⟨-, tail, htail, hslash⟩ := exists_callFront arguments
  have hbefore : beforeSlash arguments = beforeSlash (callFront arguments ++ tail) :=
    congrArg beforeSlash htail
  rw [hbefore]
  by_cases hmem : '/' ∈ callFront arguments
  · obtain ⟨a, b, hab, ha⟩ := List.eq_append_cons_of_mem hmem
    rw [hab, List.append_assoc, List.cons_append, beforeSlash_slash a _ ha]
    exact List.prefix_append a _
  · have hself : beforeSlash (callFront arguments ++ tail) = callFront arguments := by
      rw [beforeSlash_append hmem, beforeSlash_tail hslash, List.append_nil]
    exact ⟨[], by rw [hself, List.append_nil]⟩

/-- A slash in a part in front of the slash at the top level is nested. -/
theorem after_ne_top_of_slash {p : Char → Bool} {u v : Text}
    (h : u ++ '/' :: v ∈ atTop p (callFront arguments)) : State.top.after u ≠ .top :=
  ((exists_callFront arguments).1.of_mem_atTop h).after_ne_top (decide_eq_true rfl) (by decide)

theorem hasCommas_eq_false_iff :
    hasCommas arguments = false ↔ Whole (· = ',') (callFront arguments) := by
  rw [← Split.atTop_eq_singleton_iff, hasCommas, Split.atChar, decide_eq_false_iff_not]
  rcases Split.atTop_cases (· = ',') (callFront arguments) with
    ⟨-, hparts⟩ | ⟨u, c, v, -, -, -, -, -, hparts⟩
  · simp [hparts]
  · obtain ⟨part, rest, hrest⟩ := List.exists_cons_of_ne_nil (Split.parts_ne_nil (· = ',') .top v)
    rw [hparts, atTop, hrest]
    simp

/-- With commas at the top level, a term is good if it holds neither slash nor comma. -/
def IsPlainTerm (arguments term : Text) : Prop :=
  '/' ∉ term ∧ (hasCommas arguments = true → ',' ∉ term)

/-- With blanks between the terms. -/
theorem agreeWhile_blanks (hcommas : hasCommas arguments = false)
    (hcomma : ',' ∉ beforeSlash arguments) :
    AgreeWhile (IsPlainTerm arguments) (channelParts arguments) (callTerms arguments) := by
  obtain ⟨-, tail, htail, hslash⟩ := exists_callFront arguments
  have hagree := (readsParts_blank hslash).agreeWhile prepares_id
    (fun c hc => by rw [show c = '/' from of_decide_eq_true hc]; decide)
    (callFront arguments) fun u c v hmem hc => by
      obtain rfl : c = '/' := of_decide_eq_true hc
      exact after_ne_top_of_slash hmem
  rw [← htail, ← terms_eq_preparedParts, ← terms_eq_preparedParts] at hagree
  rw [channelParts, if_neg hcomma, callTerms, if_neg (by rw [hcommas]; exact Bool.false_ne_true)]
  refine agreeWhile_congr
    (fun t => ⟨fun h => ⟨fun hmem => ?_, fun htrue => ?_⟩, fun h x hx => ?_⟩) hagree
  · simpa using h '/' hmem
  · exact absurd (hcommas.symm.trans htrue) Bool.false_ne_true
  · exact decide_eq_false fun heq => h.1 (heq ▸ hx)

/-- With commas between the terms, one of which comes before all slashes. -/
theorem agreeWhile_commas (hcommas : hasCommas arguments = true)
    (hcomma : ',' ∈ beforeSlash arguments) :
    AgreeWhile (IsPlainTerm arguments) (channelParts arguments) (callTerms arguments) := by
  obtain ⟨-, tail, htail, hslash⟩ := exists_callFront arguments
  have hagree := (readsParts_comma hslash).agreeWhile prepares_trim
    (fun c hc => by
      rcases Bool.or_eq_true_iff.mp hc with hc | hc
      · rw [show c = '/' from of_decide_eq_true hc]; decide
      · rw [show c = ',' from of_decide_eq_true hc]; decide)
    (callFront arguments) fun u c v hmem hc => by
      rcases Bool.or_eq_true_iff.mp hc with hc | hc
      · obtain rfl : c = '/' := of_decide_eq_true hc
        exact after_ne_top_of_slash hmem
      · obtain rfl : c = ',' := of_decide_eq_true hc
        exact (Split.whole_of_mem_atTop hmem).after_ne_top (decide_eq_true rfl) (by decide)
  rw [← htail] at hagree
  rw [channelParts, if_pos hcomma, callTerms, if_pos hcommas]
  refine agreeWhile_congr
    (fun t => ⟨fun h => ⟨fun hmem => ?_, fun _ hmem => ?_⟩, fun h x hx => ?_⟩) hagree
  · simpa using h '/' hmem
  · simpa using h ',' hmem
  · exact Bool.or_eq_false_iff.mpr ⟨decide_eq_false fun heq => h.1 (heq ▸ hx),
      decide_eq_false fun heq => h.2 hcommas (heq ▸ hx)⟩

/-- With commas between the terms, all of them behind a slash in the first term. -/
theorem agreeWhile_slash (hcommas : hasCommas arguments = true)
    (hcomma : ',' ∉ beforeSlash arguments) :
    AgreeWhile (IsPlainTerm arguments) (channelParts arguments) (callTerms arguments) := by
  obtain ⟨-, tail, htail, -⟩ := exists_callFront arguments
  rcases Split.atTop_cases (· = ',') (callFront arguments) with
    ⟨hwhole, -⟩ | ⟨u, c, v, hfront, -, -, hc, -, hparts⟩
  · rw [hasCommas_eq_false_iff.mpr hwhole] at hcommas
    exact Bool.noConfusion hcommas
  obtain rfl : c = ',' := of_decide_eq_true hc
  have hslash : '/' ∈ u := by
    by_contra hnone
    refine hcomma ?_
    rw [htail, hfront, List.append_assoc, beforeSlash_append hnone, List.cons_append,
      beforeSlash_cons (by decide)]
    exact List.mem_append_right _ List.mem_cons_self
  obtain ⟨a, b, rfl, ha⟩ := List.eq_append_cons_of_mem hslash
  have hbefore : beforeSlash arguments = a := by
    rw [htail, hfront, List.append_assoc, List.append_assoc, List.cons_append,
      beforeSlash_slash a _ ha]
  have hmem : a ++ '/' :: b ∈ atTop (· = ',') (callFront arguments) := by simp [hparts]
  -- blanks alone would leave the slash at the top level
  have hterms : Split.terms a ≠ [] := fun hnil => after_ne_top_of_slash hmem <|
    State.after_plain fun c hc => Split.isPlain_of_isBlank (Split.isBlank_of_terms_eq_nil hnil c hc)
  obtain ⟨y, ys, hy⟩ := List.exists_cons_of_ne_nil hterms
  have hya : y <:+: a := by
    refine Split.infix_of_mem_atTop (Split.mem_terms_iff.mp ?_).1
    rw [hy]
    exact List.mem_cons_self
  have hz : '/' ∈ Text.trim (a ++ '/' :: b) := mem_trim (by decide) (by simp)
  refine ⟨[], fun x hx => absurd hx List.not_mem_nil, .inr ⟨y, ys, Text.trim (a ++ '/' :: b),
    ((atTop (· = ',') v).map Text.trim).filter fun term => !term.isEmpty, ?_, ?_, ?_, ?_⟩⟩
  · rw [channelParts, if_neg hcomma, hbefore, hy, List.nil_append]
  · rw [callTerms, if_pos hcommas, Split.atChar, hparts, List.map_cons, List.filter_cons_of_pos,
      List.nil_append]
    simpa using List.ne_nil_of_mem hz
  · exact ⟨fun h => ha (hya.subset h), fun _ h => hcomma (hbefore.symm ▸ hya.subset h)⟩
  · exact fun h => h.1 hz

/-- The channels that are found go together with the terms up to the first term in which there is
a slash or, where commas separate, a comma. -/
theorem agreeWhile_callTerms (h : hasCommas arguments = true ∨ ',' ∉ beforeSlash arguments) :
    AgreeWhile (IsPlainTerm arguments) (channelParts arguments) (callTerms arguments) := by
  by_cases hcomma : ',' ∈ beforeSlash arguments
  · exact agreeWhile_commas (h.resolve_right fun hnot => hnot hcomma) hcomma
  · cases hcommas : hasCommas arguments with
    | true => exact agreeWhile_slash hcommas hcomma
    | false => exact agreeWhile_blanks hcommas hcomma

/-- If commas are read although blanks separate the terms, the first channel is no term: it ends in
front of a comma that is nested. -/
theorem take_ne_of_nested_comma (harguments : Split.Balanced arguments)
    (hcommas : hasCommas arguments = false) (hcomma : ',' ∈ beforeSlash arguments)
    {n : Nat} (hn : 0 < n) (rest : List Text)
    (hlength : n ≤ (channelParts arguments ++ rest).length) :
    (channelParts arguments ++ rest).take n ≠ (callTerms arguments).take n := by
  obtain ⟨a, b, hab, ha⟩ := List.eq_append_cons_of_mem hcomma
  obtain ⟨d, hd⟩ := beforeSlash_prefix arguments
  rw [hab, List.append_assoc, List.cons_append] at hd
  have hnested : State.top.after a ≠ .top :=
    (hd.symm ▸ hasCommas_eq_false_iff.mp hcommas).after_ne_top (decide_eq_true rfl) (by decide)
  have htrim : Text.trim a ≠ [] := fun hnil => hnested (prepares_trim.after_eq_top hnil)
  have hfirst : ∃ more, channelParts arguments = Text.trim a :: more := by
    rw [channelParts, if_pos hcomma, hab, Text.pieces_append (by decide),
      Text.pieces_eq_singleton fun x hx => decide_eq_false fun h : x = ',' => ha (h ▸ hx)]
    exact ⟨_, List.filter_cons_of_pos (by simpa using htrim)⟩
  obtain ⟨more, hmore⟩ := hfirst
  intro heq
  have hmem : Text.trim a ∈ (callTerms arguments).take n := by
    rw [← heq, hmore]
    obtain ⟨m, rfl⟩ := Nat.exists_eq_succ_of_ne_zero (Nat.ne_of_gt hn)
    exact List.mem_cons_self
  have hterm : Text.trim a ∈ Split.terms (callFront arguments) := by
    have hmem' := List.mem_of_mem_take hmem
    rwa [callTerms, if_neg (by rw [hcommas]; exact Bool.false_ne_true)] at hmem'
  have hbalanced := harguments.of_mem_atTop (callFront_mem arguments)
  have hends := (hbalanced.of_mem_atTop (Split.mem_terms_iff.mp hterm).1).ends
  obtain ⟨x, y, hxy, hx, hy⟩ := Text.exists_blanks a
  refine hnested ?_
  rw [hxy, State.after_append, State.after_append,
    State.after_plain fun c hc => Split.isPlain_of_isBlank (hx c hc), hends,
    State.after_plain fun c hc => Split.isPlain_of_isBlank (hy c hc)]

/-- A term stands in the arguments. -/
theorem infix_of_mem_callTerms {term : Text} (h : term ∈ callTerms arguments) :
    term <:+: arguments := by
  have hfront := Split.infix_of_mem_atTop (callFront_mem arguments)
  unfold callTerms at h
  split at h
  · obtain ⟨part, hpart, rfl⟩ := List.mem_map.mp (List.mem_filter.mp h).1
    exact (Text.trim_infix part).trans ((Split.infix_of_mem_atTop hpart).trans hfront)
  · exact (Split.infix_of_mem_atTop (Split.mem_terms_iff.mp h).1).trans hfront

/-- The channels that are found are the terms exactly if nothing is nested in them by which
channels are told apart. -/
theorem take_eq_callTerms_iff (harguments : Split.Balanced arguments) {n : Nat} (hn : 0 < n)
    (rest : List Text) (hlength : n ≤ (channelParts arguments ++ rest).length) :
    ((channelParts arguments ++ rest).take n = (callTerms arguments).take n ∧
      ∀ term ∈ (callTerms arguments).take n, Split.Balanced term) ↔ Unnested arguments n := by
  by_cases hread : hasCommas arguments = true ∨ ',' ∉ beforeSlash arguments
  · obtain ⟨k, -, htake, hgood⟩ := (agreeWhile_callTerms hread).exists_length
    rw [htake n rest hlength, ← hgood n]
    constructor
    · rintro ⟨⟨henough, hplain⟩, hbalanced⟩
      refine ⟨henough, hbalanced, fun term hterm => (hplain term hterm).1, ?_⟩
      split
      next hcommas => exact fun term hterm => (hplain term hterm).2 hcommas
      next hcommas => exact hread.resolve_left hcommas
    · rintro ⟨henough, hbalanced, hslash, hcomma⟩
      refine ⟨⟨henough, fun term hterm => ⟨hslash term hterm, fun hcommas => ?_⟩⟩, hbalanced⟩
      rw [if_pos hcommas] at hcomma
      exact hcomma term hterm
  · obtain ⟨hcommas, hcomma⟩ := not_or.mp hread
    refine iff_of_false (fun h => ?_) fun h => ?_
    · exact take_ne_of_nested_comma harguments (Bool.not_eq_true _ ▸ hcommas)
        (not_not.mp hcomma) hn rest hlength h.1
    · have hnone := h.comma
      rw [if_neg hcommas] at hnone
      exact hcomma hnone

/-- Then the channels are found without what follows the slash. -/
theorem Unnested.le_length {n : Nat} (h : Unnested arguments n) :
    n ≤ (channelParts arguments).length := by
  have hread : hasCommas arguments = true ∨ ',' ∉ beforeSlash arguments := by
    by_contra hread
    obtain ⟨hcommas, hcomma⟩ := not_or.mp hread
    have hnone := h.comma
    rw [if_neg hcommas] at hnone
    exact hcomma hnone
  obtain ⟨k, hk, -, hgood⟩ := (agreeWhile_callTerms hread).exists_length
  refine Nat.le_trans ((hgood n).mp
    ⟨h.enough, fun term hterm => ⟨h.slash term hterm, fun hcommas => ?_⟩⟩) hk
  have hcomma := h.comma
  rw [if_pos hcommas] at hcomma
  exact hcomma term hterm

end Reading

/-- A placeholder behind the slash is replaced there. -/
theorem exists_replaceAll_callText {name arguments : Text}
    (hfront : Text.includes (name ++ '(' :: beforeSlash arguments) alphaPlaceholder = false)
    (hcall : Text.includes (callText name arguments) alphaPlaceholder = true) (opacity : Text) :
    ∃ alpha, Text.replaceAll alphaPlaceholder opacity (callText name arguments) =
      callText name (beforeSlash arguments ++ '/' :: alpha) := by
  rcases Text.exists_first (· = '/') arguments with hnone | ⟨a, c, b, rfl, hc, ha⟩
  · -- without a slash there is no place left for the placeholder
    have hslash : '/' ∉ arguments := fun h => by simpa using hnone _ h
    rw [beforeSlash_eq_self hslash] at hfront
    have hsplit : callText name arguments = (name ++ '(' :: arguments) ++ ')' :: [] := by
      simp [callText]
    rw [hsplit] at hcall
    rcases Text.includes_or_of_append (by decide) hcall with h | h
    · exact absurd (hfront.symm.trans h) Bool.false_ne_true
    · exact absurd h (by decide)
  · obtain rfl : c = '/' := of_decide_eq_true hc
    have hslash : '/' ∉ a := fun h => by simpa using ha _ h
    rw [beforeSlash_slash a b hslash] at hfront ⊢
    refine ⟨Text.replaceAll alphaPlaceholder opacity b, ?_⟩
    have hsplit : ∀ rest : Text, callText name (a ++ '/' :: rest) =
        (name ++ '(' :: a) ++ '/' :: (rest ++ [')']) := fun rest => by simp [callText]
    have hreplace : ∀ t u : Text, ∀ c ∉ alphaPlaceholder,
        Text.replaceAll alphaPlaceholder opacity (t ++ c :: u) =
          Text.replaceAll alphaPlaceholder opacity t ++
            c :: Text.replaceAll alphaPlaceholder opacity u := fun t u c hc =>
      Text.replaceFrom_append (by decide) hc opacity u (Nat.zero_le _)
    rw [hsplit, hsplit, hreplace _ _ '/' (by decide), hreplace b [] ')' (by decide),
      Text.replaceAll_eq_self opacity hfront]
    rfl

/-- A call that is a color keeps its channels.  There are as many as the function takes, and they
are the terms in front of the slash exactly if these are there and nothing of what channels are told
apart by is nested in them.  With an opacity the channels are written again; a placeholder that
stands behind the slash is replaced, and the channels stay. -/
theorem read_call_channels {name arguments : Text} (hname : Text.toLower name ∈ colorFunctions)
    (harguments : Split.Balanced arguments) {color : Color}
    (hread : Color.read (callText name arguments) = .ok color) :
    ∃ channels, color = .function (keptName (Text.toLower name)) channels ∧
      channels.length = channelCount (Text.toLower name) ∧
      ((channels = (callTerms arguments).take (channelCount (Text.toLower name)) ∧
          ∀ channel ∈ channels, Split.Balanced channel ∧ channel <:+: arguments) ↔
        Unnested arguments (channelCount (Text.toLower name))) ∧
      (∀ opacity, Text.includes (callText name arguments) alphaPlaceholder = false →
        withOpacity? (callText name arguments) opacity =
          some (callText (keptName (Text.toLower name)) (callArguments channels opacity))) ∧
      (∀ opacity, Unnested arguments (channelCount (Text.toLower name)) →
        Text.includes (name ++ '(' :: beforeSlash arguments) alphaPlaceholder = false →
        Text.includes (callText name arguments) alphaPlaceholder = true →
        ∃ alpha, withOpacity? (callText name arguments) opacity =
            some (callText name (beforeSlash arguments ++ '/' :: alpha)) ∧
          Color.read (callText name (beforeSlash arguments ++ '/' :: alpha)) = .ok color) := by
  have hcall := read_callText hname arguments
  rw [hread] at hcall
  split at hcall
  · cases hcall
  rename_i hcount
  have hlength := Nat.le_of_not_lt hcount
  injection hcall with hcolor
  have hparts := splitChannels_eq arguments
  refine ⟨_, hcolor, ?_, ?_, fun opacity hnone => ?_, fun opacity hnested hfront hplaceholder => ?_⟩
  · rw [List.length_take, Nat.min_eq_left hlength]
  · rw [hparts] at hlength ⊢
    rw [← take_eq_callTerms_iff harguments (channelCount_pos _) _ hlength]
    refine and_congr_right fun heq => ?_
    rw [heq]
    exact forall₂_congr fun term hterm =>
      and_iff_left (infix_of_mem_callTerms (List.mem_of_mem_take hterm))
  · rw [withOpacity?_of_read hnone hread, hcolor, withAlpha?_function]
  · obtain ⟨alpha, hreplace⟩ := exists_replaceAll_callText hfront hplaceholder opacity
    refine ⟨_, by rw [withOpacity?, if_pos hplaceholder, hreplace], ?_⟩
    have hslash : '/' ∉ beforeSlash arguments := fun h => by
      simpa using List.mem_takeWhile_imp h
    have hle := hnested.le_length
    have hsame : ∀ rest,
        channelParts (beforeSlash arguments ++ '/' :: rest) = channelParts arguments := fun rest => by
      rw [channelParts, beforeSlash_slash _ rest hslash, ← channelParts]
    rw [read_callText hname, splitChannels_eq, hsame, if_neg, hcolor, hparts,
      List.take_append_of_le_length hle, List.take_append_of_le_length hle]
    rw [List.length_append]
    omega

/-- Commas that are nested in the opacity do no harm, and blanks that are nested in a channel. -/
theorem read_call_channels_legacy :
    let arguments := "calc(1px + 2%), var(--g), 3, var(--a, 0.5)".toList
    let channels := Text.listOf ["calc(1px + 2%)", "var(--g)", "3"]
    Text.toLower "RGBA" ∈ colorFunctions ∧ Split.Balanced arguments ∧ Unnested arguments 3 ∧
      Color.read (callText "RGBA" arguments) = .ok (.function "rgb" channels) ∧
      channels = (callTerms arguments).take 3 ∧
      withOpacity? (callText "RGBA" arguments) "0.25" =
        some "rgb(calc(1px + 2%) var(--g) 3 / 0.25)".toList := by
  intro arguments channels
  have hname : Text.toLower "RGBA" ∈ colorFunctions := by decide
  have harguments : Split.Balanced arguments := by decide
  have hunnested : Unnested arguments 3 := by decide
  have hread : Color.read (callText "RGBA" arguments) = .ok (.function "rgb" channels) := by rfl
  obtain ⟨found, hcolor, -, hterms, hopacity, -⟩ := read_call_channels hname harguments hread
  obtain rfl : channels = found := (Color.function.inj hcolor).2
  have hcount : channelCount (Text.toLower "RGBA") = 3 := by decide
  rw [hcount] at hterms
  refine ⟨hname, harguments, hunnested, hread, (hterms.mpr hunnested).1, ?_⟩
  rw [hopacity "0.25" (by decide)]
  decide

/-- A slash that is nested in a channel cuts it, and an opacity in the place of a missing channel
becomes one. -/
theorem read_call_channels_cut :
    Split.Balanced "1 2 calc(6/2)" ∧ Split.Balanced "1 2 / 0.5" ∧
      callTerms "1 2 calc(6/2)" = Text.listOf ["1", "2", "calc(6/2)"] ∧
      Color.read (callText "rgb" "1 2 calc(6/2)") =
        .ok (.function "rgb" (Text.listOf ["1", "2", "calc(6"])) ∧
      withOpacity? (callText "rgb" "1 2 calc(6/2)") "0.5" = some "rgb(1 2 calc(6 / 0.5)".toList ∧
      callTerms "1 2 / 0.5" = Text.listOf ["1", "2"] ∧
      Color.read (callText "rgb" "1 2 / 0.5") =
        .ok (.function "rgb" (Text.listOf ["1", "2", "0.5"])) := by
  refine ⟨by decide, by decide, by decide, by rfl, by decide, by decide, by rfl⟩

end Value
end UtilityCss
