import UtilityCss.ClassList.Listing
import UtilityCss.Evaluation.Utility
import UtilityCss.Proofs.ClassList.Placement
import UtilityCss.Proofs.Evaluation.Reading

/-!
# Which reading of a name decides

The readings that are tried are all there are: the name as it stands, without its hyphen,
without its modifier, without both, and then every way to split what is left at a
hyphen, the longest key first.  The first of them that some registered utility renders
decides what the name resolves to.

The reader finds the modifier at the end of the name, and it comes off there.  A
modifier that is all of the name stays on, and the name is then read like one without a
modifier.
-/

namespace UtilityCss

/-! ## Modifiers at the end of names -/

/-- The text is the modifier with its slash and its brackets; no modifier is no text. -/
def ModifierText.Spells (suffix : Text) : Option ModifierText → Prop
  | none => suffix = []
  | some m => ∃ close, Brackets.isClosing close = true ∧
      suffix = '/' :: if m.wrapped then '[' :: (m.text ++ [close]) else m.text

theorem ModifierText.Spells.width {suffix : Text} {m : ModifierText}
    (h : ModifierText.Spells suffix (some m)) : m.width = Text.bytes suffix := by
  obtain ⟨close, hclose, rfl⟩ := h
  have hone : close.utf8Size = 1 := Brackets.utf8Size_of_isClosing hclose
  have hslash : '/'.utf8Size = 1 := by decide
  have hopen : '['.utf8Size = 1 := by decide
  cases hwrapped : m.wrapped <;> simp [ModifierText.width, hwrapped] <;> omega

namespace ClassList

/-- The name of a closed head ends with its modifier. -/
theorem Head.Laid.spells {name : Slice} {m : Option Modifier} {start : Nat} {t after : Text}
    (h : (Head.plain name m).Laid start t after) (hclosed : (Head.plain name m).closed = true) :
    ∃ core suffix, name.text = core ++ suffix ∧
      ModifierText.Spells suffix (m.map Modifier.written) := by
  obtain ⟨rfl, core, u, rfl, hm⟩ := h
  refine ⟨core, u, rfl, ?_⟩
  cases m with
  | none => exact hm
  | some m =>
    have hmclosed : m.closed = true := by simpa [Head.closed, Head.modifier] using hclosed
    rcases hm with ⟨hwrapped, box, rfl, -, hbox⟩ | ⟨hplain, -, -, rfl⟩
    · rw [if_pos hmclosed] at hbox
      obtain ⟨close, hclose, rfl⟩ := hbox
      exact ⟨close, hclose, by simp [Modifier.written, hwrapped]⟩
    · exact ⟨')', by decide, by simp [Modifier.written, hplain]⟩

/-! ## The heads of a listing -/

/-- Every head of the parts lies in some text. -/
def HeadsLaid (nodes : List Node) : Prop :=
  ∀ n ∈ nodes, ∀ head, n.shape.head? = some head →
    n.closed = head.closed ∧ ∃ start t after, head.Laid start t after

namespace HeadsLaid

variable {nodes more : List Node} {n : Node}

theorem nil : HeadsLaid [] := fun _ h => absurd h List.not_mem_nil

theorem append (h : HeadsLaid nodes) (h' : HeadsLaid more) : HeadsLaid (nodes ++ more) := by
  intro n hn
  rcases List.mem_append.mp hn with hn | hn
  · exact h n hn
  · exact h' n hn

/-- A part without a head adds none. -/
theorem snoc (h : HeadsLaid nodes) (hn : n.shape.head? = none) : HeadsLaid (nodes ++ [n]) := by
  refine h.append ?_
  intro m hm head hhead
  rw [List.mem_singleton.mp hm, hn] at hhead
  exact absurd hhead (by simp)

theorem single {head : Head} {start : Nat} {t after : Text} (hn : n.shape.head? = some head)
    (hclosed : n.closed = head.closed) (hlaid : head.Laid start t after) : HeadsLaid [n] := by
  intro m hm head' hhead
  rw [List.mem_singleton.mp hm] at hhead ⊢
  obtain rfl : head = head' := Option.some.inj (hn ▸ hhead)
  exact ⟨hclosed, start, t, after, hlaid⟩

end HeadsLaid

mutual

theorem Variant.Laid.heads {sep : Separator} {start : Nat} {t : Text} :
    ∀ {v : Variant} {first : Nat}, v.Laid sep start t → HeadsLaid (v.listing first)
  | .named .., _, ⟨_, _, hhead⟩ => .single rfl rfl hhead
  | .selector .., _, _ => HeadsLaid.nil.snoc rfl
  | .group .., _, ⟨_, _, _, _, _, hmembers⟩ => (MembersLaid.heads hmembers).snoc rfl

theorem ChainLaid.heads {sep : Separator} {start : Nat} {t : Text} :
    ∀ {links : List Variant} {first : Nat}, ChainLaid sep start t links →
      HeadsLaid (chainListing first links).1
  | [], _, _ => .nil
  | _ :: _, _, ⟨_, _, _, _, hv, _, hrest⟩ => (Variant.Laid.heads hv).append (ChainLaid.heads hrest)

theorem MembersLaid.heads {sep : Separator} {start : Nat} {t : Text} :
    ∀ {members : List (List Variant)} {first : Nat}, MembersLaid sep start t members →
      HeadsLaid (membersListing first members).1
  | [], _, _ => .nil
  | _ :: _, _, ⟨_, _, _, _, _, _, hlinks, hrest⟩ =>
    (ChainLaid.heads hlinks).append (MembersLaid.heads hrest)

end

mutual

theorem Expr.Laid.heads {sep : Separator} {start : Nat} {t after : Text} :
    ∀ {e : Expr} {first : Nat}, e.Laid sep start t after → HeadsLaid (e.listing first)
  | .utility .., _, ⟨_, _, _, _, _, _, hhead⟩ => .single rfl rfl hhead
  | .property .., _, _ => HeadsLaid.nil.snoc rfl
  | .group .., _, ⟨_, _, _, _, _, _, _, hmembers⟩ => (ExprsLaid.heads hmembers).snoc rfl
  | .span _ _ none, _, ⟨_, _, _, hv⟩ => (Variant.Laid.heads hv).snoc rfl
  | .span _ _ (some _), _, ⟨_, _, _, _, hv, hchild⟩ =>
    ((Variant.Laid.heads hv).append (Expr.Laid.heads hchild)).snoc rfl

theorem ExprsLaid.heads {sep : Separator} {start : Nat} {t after : Text} :
    ∀ {es : List Expr} {first : Nat}, ExprsLaid sep start t after es →
      HeadsLaid (exprsListing first es).1
  | [], _, _ => .nil
  | _ :: _, _, ⟨_, _, _, _, _, he, hrest⟩ => (Expr.Laid.heads he).append (ExprsLaid.heads hrest)

end

/-- Every head that is read lies in some text. -/
theorem read_heads (sep : Separator) (source : Text) : HeadsLaid (read sep source).listing :=
  (ExprsLaid.heads (read_laid sep source)).snoc rfl

end ClassList

namespace Reading

/-! ## Taking off signs and modifiers -/

/-- How a name is taken apart: `taken` is the modifier that comes off and `suffix` the text
that comes off with it.  Where nothing would be left the modifier stays on. -/
inductive Parted (name : Text) :
    Option ModifierText → Text → Text → Option ModifierText → Prop where
  | off {core suffix : Text} {m : ModifierText} : name = core ++ suffix → core ≠ [] →
    ModifierText.Spells suffix (some m) → Parted name (some m) core suffix (some m)
  | on {m : Option ModifierText} : (∀ x ∈ m, Text.bytes name ≤ x.width) →
    Parted name m name [] none

theorem positive?_append {core : Text} (h : core ≠ []) (suffix : Text) :
    positive? (core ++ suffix) = (positive? core).map (· ++ suffix) := by
  obtain ⟨ch, t, rfl⟩ := List.exists_cons_of_ne_nil h
  rw [List.cons_append]
  unfold positive?
  split <;> rename_i heq
  · obtain ⟨rfl, rfl⟩ := List.cons.inj heq
    rfl
  · split <;> rename_i heq'
    · obtain ⟨rfl, rfl⟩ := List.cons.inj heq'
      exact absurd rfl (heq _)
    · rfl

theorem eq_of_positive? {t u : Text} (h : positive? t = some u) : t = '-' :: u := by
  unfold positive? at h
  split at h
  · rw [Option.some.inj h]
  · exact absurd h (by simp)

/-- What begins with something other than a hyphen is no negative value. -/
theorem positive?_append_eq_none {lead : Text} (hne : lead ≠ []) (hhyphen : lead.head? ≠ some '-')
    (t : Text) : positive? (lead ++ t) = none := by
  obtain ⟨ch, lead, rfl⟩ := List.exists_cons_of_ne_nil hne
  refine Option.eq_none_iff_forall_ne_some.mpr fun body hbody => hhyphen ?_
  rw [List.head?_cons, (List.cons.inj (eq_of_positive? hbody)).1]

/-- The hyphen of a negative value. -/
def sign (negative : Bool) : Text := if negative then ['-'] else []

/-- A text is its sign and what is left without it. -/
theorem sign_append_positive? (t : Text) :
    t = sign (positive? t).isSome ++ (positive? t).getD t := by
  unfold positive?
  split <;> rfl

namespace Parted

variable {name core suffix : Text} {m taken : Option ModifierText}

theorem append (h : Parted name m core suffix taken) : name = core ++ suffix := by
  cases h with
  | off hname _ _ => exact hname
  | on => rw [List.append_nil]

theorem positive? (h : Parted name m core suffix taken) :
    positive? name = (Reading.positive? core).map (· ++ suffix) := by
  cases h with
  | off hname hcore _ => rw [hname, positive?_append hcore]
  | on => simp

theorem stripModifier? (h : Parted name m core suffix taken) :
    stripModifier? name m = some (taken.map fun _ => core) := by
  cases h with
  | off hname hcore hspells =>
    rw [hname, stripModifier?_append core suffix hspells.width, if_neg hcore]
    rfl
  | on hlong =>
    cases m with
    | none => rfl
    | some m =>
      have := hlong m rfl
      rw [Reading.stripModifier?, if_neg (by omega)]
      rfl

end Parted

/-- A name that ends with its modifier comes apart in front of it, unless there is nothing
in front. -/
theorem parted_append {m : Option ModifierText} (core : Text) {suffix : Text}
    (h : ModifierText.Spells suffix m) :
    Parted (core ++ suffix) m (if core = [] then suffix else core)
      (if core = [] then [] else suffix) (if core = [] then none else m) := by
  by_cases hcore : core = []
  · subst hcore
    rw [if_pos rfl, if_pos rfl, if_pos rfl]
    refine .on ?_
    rintro x rfl
    exact Nat.le_of_eq h.width.symm
  · rw [if_neg hcore, if_neg hcore, if_neg hcore]
    cases m with
    | some m => exact .off rfl hcore h
    | none =>
      obtain rfl : suffix = [] := h
      rw [List.append_nil]
      exact .on (fun x hx => absurd hx (by simp))

/-- What is left of a name without a lead comes apart too: it ends with the modifier, or it is
too short for it. -/
theorem exists_parted_of_suffix {m : Option ModifierText} {core suffix front rest : Text}
    (h : ModifierText.Spells suffix m) (hname : core ++ suffix = front ++ rest) (negative : Bool) :
    ∃ core' suffix' taken, Parted (sign negative ++ rest) m core' suffix' taken := by
  rcases List.append_eq_append_iff.mp hname with ⟨v, hfront, hsuffix⟩ | ⟨v, hcore, hrest⟩
  · -- the modifier has lost a part of its text, or nothing is left in front of it
    cases m with
    | none => exact ⟨_, _, _, .on fun x hx => absurd hx (by simp)⟩
    | some m =>
      by_cases hv : v = []
      · rw [hv, List.nil_append] at hsuffix
        rw [← hsuffix]
        exact ⟨_, _, _, parted_append _ h⟩
      · refine ⟨_, _, _, .on ?_⟩
        rintro x hx
        obtain rfl : m = x := Option.some.inj hx
        have hpos := Text.bytes_pos hv
        have hsign : Text.bytes (sign negative) ≤ 1 := by cases negative <;> decide
        rw [h.width, hsuffix, Text.bytes_append, Text.bytes_append]
        omega
  · rw [hrest, ← List.append_assoc]
    exact ⟨_, _, _, parted_append _ h⟩

/-! ## Splitting at hyphens -/

/-- A text is split at each of its hyphens. -/
theorem mem_splits {key value : Text} : ∀ {t : Text},
    (key, value) ∈ splits t ↔ t = key ++ '-' :: value
  | [] => by simp [splits]
  | c :: t => by
    have further : (key, value) ∈ (splits t).map (fun entry => (c :: entry.1, entry.2)) ↔
        ∃ rest, key = c :: rest ∧ t = rest ++ '-' :: value := by
      rw [List.mem_map]
      constructor
      · rintro ⟨⟨rest, value'⟩, hmem, heq⟩
        obtain ⟨rfl, rfl⟩ := Prod.mk.inj heq
        exact ⟨rest, rfl, mem_splits.mp hmem⟩
      · rintro ⟨rest, rfl, ht⟩
        exact ⟨(rest, value), mem_splits.mpr ht, rfl⟩
    have behind : (∃ rest, key = c :: rest ∧ t = rest ++ '-' :: value) ↔
        key ≠ [] ∧ c :: t = key ++ '-' :: value := by
      cases key with
      | nil => simp
      | cons k rest => simp [eq_comm]
    unfold splits
    split <;> rename_i hc
    · rw [List.mem_cons, further, behind]
      cases key <;> simp [hc, eq_comm]
    · rw [further, behind]
      cases key <;> simp [hc]

/-- The splits come with longer and longer keys. -/
theorem pairwise_splits : ∀ t : Text,
    (splits t).Pairwise fun a b => a.1.length < b.1.length
  | [] => List.Pairwise.nil
  | c :: t => by
    have further : ((splits t).map fun entry => (c :: entry.1, entry.2)).Pairwise
        fun a b => a.1.length < b.1.length := by
      rw [List.pairwise_map]
      exact (pairwise_splits t).imp fun h => by simpa using h
    unfold splits
    split
    · refine List.pairwise_cons.mpr ⟨?_, further⟩
      intro entry hentry
      obtain ⟨x, -, rfl⟩ := List.mem_map.mp hentry
      simp
    · exact further

/-- The reading splits `core` into sign, key, hyphen and value, neither key nor value
empty; with the suffix behind it the value is the full one. -/
structure Splits (core suffix : Text) (taken : Option ModifierText) (r : Reading) : Prop where
  negative : r.negative = (positive? core).isSome
  modifier : r.modifier = taken
  key_ne_nil : r.key ≠ []
  split : ∃ value, value ≠ [] ∧ r.value = some value ∧ r.full = some (value ++ suffix) ∧
    core = sign r.negative ++ r.key ++ '-' :: value

variable {name core suffix : Text} {m taken : Option ModifierText}

/-- Splitting a name that comes apart, in terms of its parts. -/
theorem split_eq (h : Parted name m core suffix taken) :
    split name (taken.map fun _ => core) m =
      (splits ((positive? core).getD core)).reverse.filterMap fun (key, value) =>
        if key.isEmpty || value.isEmpty then none
        else some
          { key := key
            full := some (((positive? core).getD core ++ suffix).drop (key.length + 1))
            value := some value
            negative := (positive? core).isSome
            modifier := taken } := by
  have hsign : (positive? name).isSome = (positive? core).isSome := by simp [h.positive?]
  have hfull : (positive? name).getD name = (positive? core).getD core ++ suffix := by
    rw [h.positive?, h.append]
    cases positive? core <;> rfl
  cases h with
  | off =>
    simp only [split, hsign, hfull]
    rfl
  | on =>
    simp only [split, List.append_nil]
    rfl

/-- The readings with a value are the ways to split the name. -/
theorem mem_split (h : Parted name m core suffix taken) {r : Reading} :
    r ∈ split name (taken.map fun _ => core) m ↔ r.Splits core suffix taken := by
  have hparts := sign_append_positive? core
  rw [split_eq h, List.mem_filterMap]
  constructor
  · rintro ⟨⟨key, value⟩, hmem, hr⟩
    have hcut := mem_splits.mp (List.mem_reverse.mp hmem)
    by_cases hempty : key.isEmpty || value.isEmpty
    · exact absurd hr (by simp [hempty])
    · obtain ⟨hkey, hvalue⟩ : key ≠ [] ∧ value ≠ [] := by simpa using hempty
      simp only [hempty, Bool.false_eq_true, if_false] at hr
      rw [← Option.some.inj hr]
      refine ⟨rfl, rfl, hkey, value, hvalue, rfl, ?_, ?_⟩
      · rw [hcut]
        simp
      · rw [List.append_assoc, ← hcut]
        exact hparts
  · rintro ⟨hnegative, hmodifier, hkey, value, hvalue, hrvalue, hrfull, hcut⟩
    have hbody : (positive? core).getD core = r.key ++ '-' :: value := by
      have hboth := hparts.symm.trans hcut
      rw [hnegative, List.append_assoc] at hboth
      exact List.append_cancel_left hboth
    refine ⟨(r.key, value), List.mem_reverse.mpr (mem_splits.mpr hbody), ?_⟩
    obtain ⟨key, full, _, _, _⟩ := r
    obtain rfl : full = _ := hrfull
    obtain rfl := hrvalue
    obtain rfl := hnegative
    obtain rfl := hmodifier
    simp only at hkey hbody ⊢
    rw [if_neg (by simp [hkey, hvalue]), hbody]
    simp

/-- The longer key is read first. -/
theorem pairwise_split (h : Parted name m core suffix taken) :
    (split name (taken.map fun _ => core) m).Pairwise fun r s => s.key.length < r.key.length := by
  rw [split_eq h]
  refine List.Pairwise.filterMap _ ?_ (List.pairwise_reverse.mpr (pairwise_splits _))
  rintro ⟨key, value⟩ ⟨key', value'⟩ hlt r hr s hs
  simp only [Option.ite_none_left_eq_some, Option.some.injEq] at hr hs
  rw [← hr.2, ← hs.2]
  exact hlt

/-! ## The readings of a name -/

/-- The two readings of a name without a value: as it stands, and without its hyphen. -/
def unvalued (name : Text) (m : Option ModifierText) : List Reading :=
  ⟨name, none, none, false, m⟩ ::
    (positive? name).toList.map fun key => ⟨key, none, none, true, m⟩

/-- The readings of a name without a value: those with the modifier on the name, then
those without it if it comes off. -/
def wholes (core suffix : Text) (taken : Option ModifierText) : List Reading :=
  unvalued (core ++ suffix) none ++ if taken.isSome then unvalued core taken else []

theorem whole_eq (h : Parted name m core suffix taken) :
    whole name (taken.map fun _ => core) m = wholes core suffix taken := by
  have hunvalued : ∀ (name : Text) (m : Option ModifierText),
      (⟨name, none, none, false, m⟩ : Reading) ::
        ((positive? name).map fun key => (⟨key, none, none, true, m⟩ : Reading)).toList =
      unvalued name m := by
    intro name m
    unfold unvalued
    cases positive? name <;> rfl
  simp only [whole, wholes, hunvalued, h.append]
  cases h <;> rfl

/-- No reading comes twice among those without a value. -/
theorem nodup_wholes (core suffix : Text) (taken : Option ModifierText) :
    (wholes core suffix taken).Nodup := by
  have hunvalued : ∀ (name : Text) (m : Option ModifierText), (unvalued name m).Nodup := by
    intro name m
    unfold unvalued
    cases positive? name <;> simp
  have hmodifier : ∀ {name : Text} {m : Option ModifierText} {r : Reading},
      r ∈ unvalued name m → r.modifier = m := by
    intro name m r hr
    unfold unvalued at hr
    cases hkey : positive? name <;> rw [hkey] at hr <;> simp at hr
    · rw [hr]
    · rcases hr with rfl | rfl <;> rfl
  unfold wholes
  refine List.nodup_append.mpr ⟨hunvalued _ _, ?_, ?_⟩
  · split
    · exact hunvalued _ _
    · exact List.nodup_nil
  · rintro r hr _ hr' rfl
    split at hr' <;> rename_i hsome
    · rw [← hmodifier hr', hmodifier hr] at hsome
      exact absurd hsome (by simp)
    · exact absurd hr' List.not_mem_nil

theorem value_of_mem_wholes {r : Reading} (h : r ∈ wholes core suffix taken) : r.value = none := by
  have hunvalued : ∀ {name : Text} {m : Option ModifierText}, r ∈ unvalued name m →
      r.value = none := by
    intro name m hr
    unfold unvalued at hr
    cases hkey : positive? name <;> rw [hkey] at hr <;> simp at hr
    · rw [hr]
    · rcases hr with rfl | rfl <;> rfl
  rcases List.mem_append.mp h with hr | hr
  · exact hunvalued hr
  · split at hr
    · exact hunvalued hr
    · exact absurd hr List.not_mem_nil

/-- The readings are those without a value that the table knows, and then the splits whose
key has a spec that takes values, in the order in which the keys get shorter. -/
def Listed {α : Type} (table : SpecTable α) (isLookup : α → Bool) (core suffix : Text)
    (taken : Option ModifierText) (readings : List Reading) : Prop :=
  ∃ splits,
    readings = (wholes core suffix taken).filter (fun r => Keyed.has r.key table) ++ splits ∧
    (∀ r : Reading, r ∈ splits ↔ r.Splits core suffix taken ∧ (table.specs r.key).any isLookup) ∧
    splits.Pairwise fun r s => s.key.length < r.key.length

/-- Of two splits the one with the longer key comes first. -/
theorem Listed.pairwise {α : Type} {table : SpecTable α} {isLookup : α → Bool}
    {readings : List Reading} (h : Listed table isLookup core suffix taken readings) :
    readings.Pairwise fun r s =>
      r.value.isSome = true → s.value.isSome = true → s.key.length < r.key.length := by
  obtain ⟨splits, rfl, -, hpairwise⟩ := h
  have hnone : ∀ r ∈ (wholes core suffix taken).filter (fun r => Keyed.has r.key table),
      ¬ r.value.isSome = true := by
    intro r hr
    simp [value_of_mem_wholes (List.mem_filter.mp hr).1]
  refine List.pairwise_append.mpr ⟨?_, hpairwise.imp fun hlt _ _ => hlt, ?_⟩
  · exact List.pairwise_of_forall_mem_list fun r hr s _ hvalue => absurd hvalue (hnone r hr)
  · exact fun r hr s _ hvalue => absurd hvalue (hnone r hr)

theorem eraseDups_of_nodup : ∀ {readings : List Reading}, readings.Nodup →
    readings.eraseDups = readings
  | [], _ => rfl
  | r :: rest, h => by
    obtain ⟨hr, hrest⟩ := List.nodup_cons.mp h
    have hfilter : rest.filter (fun s => !s == r) = rest := by
      refine List.filter_eq_self.mpr fun s hs => ?_
      simpa using fun hsr : s = r => hr (hsr ▸ hs)
    rw [List.eraseDups_cons, hfilter, eraseDups_of_nodup hrest]

/-- A name that comes apart has its readings listed. -/
theorem Parted.listed (h : Parted name m core suffix taken) {α : Type} (table : SpecTable α)
    (isLookup : α → Bool) :
    ∃ readings, all? table isLookup name m = some readings ∧
      Listed table isLookup core suffix taken readings := by
  set known := (wholes core suffix taken).filter fun r => Keyed.has r.key table with hknown
  set valued := (split name (taken.map fun _ => core) m).filter fun r =>
    (table.specs r.key).any isLookup with hvalued
  have hpairwise : valued.Pairwise fun r s => s.key.length < r.key.length :=
    (pairwise_split h).filter _
  have hsplits : ∀ r,
      r ∈ valued ↔ r.Splits core suffix taken ∧ (table.specs r.key).any isLookup := by
    intro r
    rw [hvalued, List.mem_filter, mem_split h]
  have hnodup : (known ++ valued).Nodup := by
    refine List.nodup_append.mpr ⟨(nodup_wholes core suffix taken).filter _, ?_, ?_⟩
    · exact hpairwise.imp fun hlt heq => by rw [heq] at hlt; omega
    · rintro r hr _ hr' rfl
      obtain ⟨value, -, hvalue, -⟩ := ((hsplits r).mp hr').1.split
      rw [value_of_mem_wholes (List.mem_filter.mp hr).1] at hvalue
      exact absurd hvalue (by simp)
  refine ⟨known ++ valued, ?_, valued, rfl, hsplits, hpairwise⟩
  rw [all?, h.stripModifier?, Option.map_some, whole_eq h, eraseDups_of_nodup hnodup]

end Reading

namespace Environment

variable (env : Environment)

/-! ## The first reading that is rendered -/

/-- The utilities that render a reading. -/
def offered (led : Bool) (r : Reading) : List Candidate :=
  env.candidates (env.registry.utilities.specs r.key) r led

/-- The reading decides: the one utility that renders it is found, several are ambiguous. -/
def Decides (led : Bool) (r : Reading) (decision : Except Failure ResolvedUtility) : Prop :=
  (∃ c, env.offered led r = [c] ∧ decision = .ok ⟨r.key, c.spec, c.tree⟩) ∨
    1 < (env.offered led r).length ∧ decision = .error .ambiguous

/-- The first reading that is rendered decides; if none is, nothing is found. -/
def FirstDecides (led : Bool) (readings : List Reading)
    (decision : Except Failure ResolvedUtility) : Prop :=
  (∃ front r behind, readings = front ++ r :: behind ∧ (∀ s ∈ front, env.offered led s = []) ∧
    env.Decides led r decision) ∨
  (∀ r ∈ readings, env.offered led r = []) ∧ decision = .error .notFound

variable {env}

theorem strong_of_mem_staticCandidate? : ∀ {specs : List UtilitySpec} {c : Candidate},
    staticCandidate? specs = some c → c.strong = true
  | [], _, h => absurd h (by simp [staticCandidate?])
  | spec :: rest, c, h => by
    unfold staticCandidate? at h
    split at h
    · rw [← Option.some.inj h]
    · exact strong_of_mem_staticCandidate? h

/-- A candidate is what the static utilities make together, or what a utility that takes values
renders. -/
theorem candidates_cases {specs : List UtilitySpec} {led : Bool} {r : Reading} {c : Candidate}
    (h : c ∈ env.candidates specs r led) :
    staticCandidate? (specs.filter fun spec => env.allows spec.flags led) = some c ∨
      ∃ spec ∈ specs, ∃ u tree, spec.rule = .lookup u ∧ env.renderEntry? u r = some tree ∧
        c = ⟨spec, tree, true⟩ := by
  rcases List.mem_append.mp h with hstatic | hlookup
  · have hsome := Option.mem_toList.mp hstatic
    split at hsome
    · exact absurd hsome (by simp)
    · exact Or.inl hsome
  · obtain ⟨spec, hmem, hspec⟩ := List.mem_filterMap.mp hlookup
    split at hspec
    · exact absurd hspec (by simp)
    · rename_i u hrule
      obtain ⟨tree, htree, rfl⟩ := Option.map_eq_some_iff.mp hspec
      exact Or.inr ⟨spec, List.mem_of_mem_filter hmem, u, tree, hrule, htree, rfl⟩

/-- What renders a plain name is as good as anything else that does. -/
theorem strong_of_mem_offered {led : Bool} {r : Reading} {c : Candidate}
    (h : c ∈ env.offered led r) : c.strong = true := by
  rcases candidates_cases h with hstatic | ⟨spec, -, u, tree, -, -, rfl⟩
  · exact strong_of_mem_staticCandidate? hstatic
  · rfl

/-- A reading makes no decision, and nothing renders it, or it decides. -/
theorem choose?_offered (env : Environment) (led : Bool) (r : Reading) :
    env.offered led r = [] ∧ Candidate.choose? r.key (env.offered led r) = none ∨
      ∃ decision, Candidate.choose? r.key (env.offered led r) = some decision ∧
        env.Decides led r decision := by
  have hall : (env.offered led r).filter Candidate.strong = env.offered led r :=
    List.filter_eq_self.mpr fun c hc => strong_of_mem_offered hc
  unfold Candidate.choose? Decides
  simp only [hall, ite_self]
  rcases env.offered led r with _ | ⟨c, _ | ⟨c', rest⟩⟩
  · exact Or.inl ⟨rfl, rfl⟩
  · exact Or.inr ⟨_, rfl, Or.inl ⟨c, rfl, rfl⟩⟩
  · exact Or.inr ⟨_, rfl, Or.inr ⟨by simp, rfl⟩⟩

theorem decide?_cons (led : Bool) (r : Reading) (rest : List Reading) :
    env.decide? led (r :: rest) =
      (Candidate.choose? r.key (env.offered led r)).getD (env.decide? led rest) := by
  rw [decide?, offered]
  cases Candidate.choose? r.key
    (env.candidates (env.registry.utilities.specs r.key) r led) <;> rfl

theorem firstDecides_decide? (led : Bool) : ∀ readings : List Reading,
    env.FirstDecides led readings (env.decide? led readings)
  | [] => Or.inr ⟨by simp, rfl⟩
  | r :: rest => by
    rw [decide?_cons]
    rcases choose?_offered env led r with ⟨hnone, hchoose⟩ | ⟨decision, hchoose, hdecides⟩
    · rw [hchoose, Option.getD_none]
      rcases firstDecides_decide? led rest with ⟨front, s, behind, rfl, hfront, hs⟩ | ⟨hall, hrest⟩
      · exact Or.inl ⟨r :: front, s, behind, rfl, List.forall_mem_cons.mpr ⟨hnone, hfront⟩, hs⟩
      · exact Or.inr ⟨List.forall_mem_cons.mpr ⟨hnone, hall⟩, hrest⟩
    · rw [hchoose, Option.getD_some]
      exact Or.inl ⟨[], r, rest, rfl, by simp, hdecides⟩

variable (env) in
/-- A utility that takes values and is registered under the key renders the reading. -/
def Rendered (led : Bool) (r : Reading) : Prop :=
  ∃ spec ∈ env.registry.utilities.specs r.key, env.allows spec.flags led = true ∧
    ∃ u, spec.rule = .lookup u ∧ (env.renderEntry? u r).isSome = true

/-- A reading with a value is for the utilities that take values. -/
theorem offered_eq_nil_iff {led : Bool} {r : Reading} (hvalue : r.value.isSome = true) :
    env.offered led r = [] ↔ ¬ env.Rendered led r := by
  unfold offered candidates Rendered
  simp only [hvalue, Bool.true_or, if_true, Option.toList_none, List.nil_append,
    List.filterMap_eq_nil_iff, List.mem_filter]
  constructor
  · rintro hnone ⟨spec, hspec, hallows, u, hrule, hsome⟩
    have := hnone spec ⟨hspec, hallows⟩
    rw [hrule] at this
    rw [Option.map_eq_none_iff.mp this] at hsome
    exact absurd hsome (by simp)
  · rintro hrendered spec ⟨hspec, hallows⟩
    split
    · rfl
    · rename_i u hrule
      rw [Option.map_eq_none_iff, ← Option.not_isSome_iff_eq_none]
      exact fun hsome => hrendered ⟨spec, hspec, hallows, u, hrule, hsome⟩

/-- Where no reading without a value is rendered, the split with the longest key that is
rendered decides. -/
theorem FirstDecides.longest {led : Bool} {core suffix : Text} {taken : Option ModifierText}
    {readings : List Reading} {decision : Except Failure ResolvedUtility}
    (h : env.FirstDecides led readings decision)
    (hlisted :
      Reading.Listed env.registry.utilities UtilitySpec.isLookup core suffix taken readings)
    {r : Reading} (hr : r ∈ readings) (hvalue : r.value.isSome = true)
    (hrendered : env.Rendered led r)
    (hwhole : ∀ s ∈ readings, s.value = none → env.offered led s = [])
    (hlonger : ∀ s ∈ readings, s.value.isSome = true → r.key.length < s.key.length →
      ¬ env.Rendered led s) : env.Decides led r decision := by
  have hoffered : env.offered led r ≠ [] := fun hnil =>
    (offered_eq_nil_iff hvalue).mp hnil hrendered
  rcases h with ⟨front, s, behind, rfl, hfront, hs⟩ | ⟨hall, -⟩
  · have hsoffered : env.offered led s ≠ [] := by
      rcases hs with ⟨c, hc, -⟩ | ⟨hlt, -⟩
      · simp [hc]
      · exact List.ne_nil_of_length_pos (by omega)
    have hsmem : s ∈ front ++ s :: behind := by simp
    have hsvalue : s.value.isSome = true := by
      rw [← Option.not_isNone, Bool.not_eq_true', Bool.eq_false_iff]
      exact fun hnone => hsoffered (hwhole s hsmem (Option.isNone_iff_eq_none.mp hnone))
    rcases List.mem_append.mp hr with hr | hr
    · exact absurd (hfront r hr) hoffered
    rcases List.mem_cons.mp hr with rfl | hr
    · exact hs
    · -- what comes later has a shorter key, so `s` is not rendered
      have hlt : r.key.length < s.key.length :=
        (List.pairwise_cons.mp (List.pairwise_append.mp hlisted.pairwise).2.1).1 r hr hsvalue hvalue
      exact absurd ((offered_eq_nil_iff hsvalue).mpr (hlonger s hsmem hsvalue hlt)) hsoffered
  · exact absurd (hall r hr) hoffered

/-- The name without the configured beginning is an end of the name, the hyphen in front of it
apart. -/
theorem stripLead_eq (env : Environment) (name : Text) : ∃ negative front rest,
    name = front ++ rest ∧ (env.stripLead name).1 = Reading.sign negative ++ rest := by
  have hsame : ∃ negative front rest, name = front ++ rest ∧
      name = Reading.sign negative ++ rest := ⟨false, [], name, rfl, rfl⟩
  simp only [stripLead]
  split
  · exact hsame
  split <;> rename_i hpositive
  · obtain rfl : name = '-' :: _ := Reading.eq_of_positive? hpositive
    split <;> rename_i hdrop
    · obtain rfl := Text.dropLead?_eq_some_iff.mp hdrop
      exact ⟨true, '-' :: env.settings.lead, _, rfl, rfl⟩
    · exact hsame
  · split <;> rename_i hdrop
    · obtain rfl := Text.dropLead?_eq_some_iff.mp hdrop
      exact ⟨false, env.settings.lead, _, rfl, rfl⟩
    · exact hsame

end Environment

/-! ## Names that are read -/

namespace ClassList

/-- A name that is read ends with its modifier.  Every table lists its readings, which put
the name together again, and the first of them that is rendered decides what the name
resolves to; among the splits that is the one with the longest key. -/
theorem read_readings {sep : Separator} {source : Text} {n : Node} {name : Slice}
    {modifier : Option Modifier} (hn : n ∈ (read sep source).listing)
    (hhead : n.shape.head? = some (.plain name modifier)) (hclosed : n.closed = true) :
    let m := modifier.map Modifier.written
    ∃ core suffix, name.text = core ++ suffix ∧ ModifierText.Spells suffix m ∧
      (∀ (α : Type) (table : SpecTable α) (isLookup : α → Bool),
        ∃ readings, Reading.all? table isLookup name.text m = some readings ∧
          (core ≠ [] → Reading.Listed table isLookup core suffix m readings) ∧
          (core = [] → Reading.Listed table isLookup name.text [] none readings)) ∧
      ∀ env : Environment,
        let led := (env.stripLead name.text).2
        ∃ core suffix taken readings,
          Reading.Parted (env.stripLead name.text).1 m core suffix taken ∧
          Reading.all? env.registry.utilities UtilitySpec.isLookup (env.stripLead name.text).1 m =
            some readings ∧
          Reading.Listed env.registry.utilities UtilitySpec.isLookup core suffix taken readings ∧
          env.FirstDecides led readings (env.utility name.text m) ∧
          ∀ r ∈ readings, r.value.isSome = true → env.Rendered led r →
            (∀ s ∈ readings, s.value = none → env.offered led s = []) →
            (∀ s ∈ readings, s.value.isSome = true → r.key.length < s.key.length →
              ¬ env.Rendered led s) →
            env.Decides led r (env.utility name.text m) := by
  obtain ⟨hnclosed, start, t, after, hlaid⟩ := read_heads sep source n hn _ hhead
  obtain ⟨core, suffix, hname, hspells⟩ := hlaid.spells (hnclosed ▸ hclosed)
  refine ⟨core, suffix, hname, hspells, ?_, ?_⟩
  · intro α table isLookup
    have hparted := Reading.parted_append core hspells
    rw [← hname] at hparted
    obtain ⟨readings, hall, hlisted⟩ := hparted.listed table isLookup
    refine ⟨readings, hall, ?_, ?_⟩
    · intro hcore
      rwa [if_neg hcore, if_neg hcore, if_neg hcore] at hlisted
    · intro hcore
      rw [if_pos hcore, if_pos hcore, if_pos hcore] at hlisted
      rwa [hname, hcore, List.nil_append]
  · intro env
    obtain ⟨negative, front, rest, hends, hstrip⟩ := env.stripLead_eq name.text
    obtain ⟨core', suffix', taken, hparted⟩ :=
      Reading.exists_parted_of_suffix hspells (hname.symm.trans hends) negative
    rw [← hstrip] at hparted
    obtain ⟨readings, hall, hlisted⟩ :=
      hparted.listed env.registry.utilities UtilitySpec.isLookup
    have hfirst : env.FirstDecides (env.stripLead name.text).2 readings
        (env.utility name.text (modifier.map Modifier.written)) := by
      simp only [Environment.utility, hall]
      exact Environment.firstDecides_decide? _ readings
    exact ⟨core', suffix', taken, readings, hparted, hall, hlisted, hfirst,
      fun r hr hvalue hrendered hwhole hlonger =>
        hfirst.longest hlisted hr hvalue hrendered hwhole hlonger⟩

/-- A negative value with a modifier, where two keys would do: the longer one comes first. -/
theorem read_readings_negative :
    let name : Text := ['-', 'm', '-', 'x', '-', '4', '/', '5']
    let m : ModifierText := ⟨['5'], false⟩
    let table : SpecTable Unit := [(['m'], [()]), (['m', '-', 'x'], [()])]
    let long : Reading := ⟨['m', '-', 'x'], some ['4', '/', '5'], some ['4'], true, some m⟩
    let short : Reading :=
      ⟨['m'], some ['x', '-', '4', '/', '5'], some ['x', '-', '4'], true, some m⟩
    Reading.all? table (fun _ => true) name (some m) = some [long, short] ∧
      ∃ core suffix, name = core ++ suffix ∧ ModifierText.Spells suffix (some m) ∧
        (core ≠ [] → Reading.Listed table (fun _ => true) core suffix (some m) [long, short]) := by
  intro name m table long short
  have hall : Reading.all? table (fun _ => true) name (some m) = some [long, short] := by decide
  obtain ⟨core, suffix, hname, hspells, hlisted, -⟩ :=
    @read_readings .colon name _ ⟨0, name⟩ (some ⟨⟨7, ['5']⟩, false, true⟩) (List.Mem.head _) rfl
      rfl
  obtain ⟨readings, hreadings, hcore, -⟩ := hlisted Unit table fun _ => true
  obtain rfl : [long, short] = readings := Option.some.inj (hall.symm.trans hreadings)
  exact ⟨hall, core, suffix, hname, hspells, hcore⟩

/-- A modifier that is all of the name is not taken off, so what would be left, which the table
has, is no reading. -/
theorem read_readings_modifier_only :
    let name : Text := ['/', '5', '0']
    let m : ModifierText := ⟨['5', '0'], false⟩
    let table : SpecTable Unit := [([], [()])]
    (∃ n ∈ (read .colon name).listing, n.closed = true ∧
        n.shape.head? = some (.plain ⟨0, name⟩ (some ⟨⟨1, ['5', '0']⟩, false, true⟩))) ∧
      name = [] ++ '/' :: m.text ∧ Keyed.has [] table = true ∧
      ¬ ∃ readings, Reading.all? table (fun _ => true) name (some m) = some readings ∧
        ⟨[], none, none, false, some m⟩ ∈ readings := by
  intro name m table
  refine ⟨⟨_, List.Mem.head _, rfl, rfl⟩, rfl, rfl, ?_⟩
  rintro ⟨readings, hall, hmem⟩
  obtain rfl : [] = readings :=
    Option.some.inj ((show Reading.all? table _ name (some m) = some [] by decide).symm.trans hall)
  exact absurd hmem List.not_mem_nil

end ClassList
end UtilityCss
