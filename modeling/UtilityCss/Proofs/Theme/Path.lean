import UtilityCss.Proofs.ClassList.Chain
import UtilityCss.Proofs.Theme.Walk
import UtilityCss.Theme.Basic

/-!
# Paths as they are written

A path is a row of items, each of which is a bare key or a text in brackets.  `read?_eq_some_iff`
says that reading accepts these rows and no other text, blanks around them apart.  What is written
in brackets stands for a key without the blanks and the quotes around it, so every key without a
closing bracket can be written there, in quotes if need be, and a path can be given that leads to
any place among the objects of a theme.
-/

namespace UtilityCss
namespace Path

/-- A part of a path that stands for one key. -/
inductive Item where
  | bare (key : Text)
  /-- What stands between two brackets. -/
  | boxed (inner : Text)
  deriving DecidableEq

namespace Item

/-- The key that the item stands for. -/
def key : Item → Text
  | bare key => key
  | boxed inner => unwrap inner

/-- The item at the beginning of a path. -/
def text : Item → Text
  | bare key => key
  | boxed inner => '[' :: (inner ++ [']'])

/-- The item behind another one: there is a dot in front of a bare key. -/
def further : Item → Text
  | bare key => '.' :: key
  | boxed inner => '[' :: (inner ++ [']'])

/-- Is the item one that reading ends where it ends? -/
def WellFormed : Item → Prop
  | bare key => key ≠ [] ∧ ∀ c ∈ key, isKeyChar c = true
  | boxed inner => ']' ∉ inner

end Item

/-- The path that consists of the items. -/
def spell : List Item → Text
  | [] => []
  | item :: items => item.text ++ items.flatMap Item.further

/-- Is the item a way to write the key?  It may be written bare, in brackets, or in brackets and
quotes.  In brackets alone it must not have blanks or quotes around it. -/
inductive Writes : Item → Text → Prop where
  | bare {key : Text} : key ≠ [] → (∀ c ∈ key, isKeyChar c = true) → Writes (.bare key) key
  | boxed {key : Text} : ']' ∉ key → Text.trim key = key →
    (∀ q inner q', Brackets.isQuote q = true → Brackets.isQuote q' = true →
      key ≠ q :: (inner ++ [q'])) → Writes (.boxed key) key
  | quoted {key : Text} {q q' : Char} : Brackets.isQuote q = true → Brackets.isQuote q' = true →
    ']' ∉ key → Writes (.boxed (q :: (key ++ [q']))) key

variable {t rest key : Text} {item : Item} {items : List Item} {keys : List Text}

/-! ## One item -/

theorem boxed?_eq_some_iff : boxed? t = some (key, rest) ↔
    ∃ inner, ']' ∉ inner ∧ t = inner ++ ']' :: rest ∧ key = unwrap inner := by
  rw [boxed?, Option.map_eq_some_iff]
  constructor
  · rintro ⟨⟨inner, rest'⟩, hcut, heq⟩
    obtain ⟨rfl, rfl⟩ := Prod.mk.inj heq
    obtain ⟨c, hc, hinner, rfl⟩ := Text.cutAt?_eq_some_iff.mp hcut
    refine ⟨inner, fun hmem => ?_, by rw [of_decide_eq_true hc], rfl⟩
    exact absurd (hinner _ hmem) (by decide)
  · rintro ⟨inner, hinner, rfl, rfl⟩
    refine ⟨(inner, rest), Text.cutAt?_eq_some_iff.mpr ⟨']', by decide, fun c hc => ?_, rfl⟩, rfl⟩
    exact decide_eq_false fun h => hinner (h ▸ hc)

theorem bare?_eq_some (h : bare? t = some (key, rest)) :
    key ≠ [] ∧ (∀ c ∈ key, isKeyChar c = true) ∧ t = key ++ rest := by
  have hsplit := List.takeWhile_append_dropWhile (p := isKeyChar) (l := t)
  have hall : ∀ c ∈ t.takeWhile isKeyChar, isKeyChar c = true := fun c => List.mem_takeWhile_imp
  rw [bare?] at h
  split at h
  next => exact absurd h (by simp)
  next hne =>
    obtain ⟨rfl, rfl⟩ := Prod.mk.inj (Option.some.inj h)
    exact ⟨hne, hall, hsplit.symm⟩

/-- A bare key is read up to a character that cannot be part of it. -/
theorem bare?_append (hne : key ≠ []) (hkey : ∀ c ∈ key, isKeyChar c = true)
    (hrest : Text.startsWithChar rest isKeyChar = false) :
    bare? (key ++ rest) = some (key, rest) := by
  have hends : rest.takeWhile isKeyChar = [] ∧ rest.dropWhile isKeyChar = rest := by
    cases rest with
    | nil => exact ⟨rfl, rfl⟩
    | cons c rest =>
      have hc : ¬isKeyChar c = true := Bool.eq_false_iff.mp hrest
      exact ⟨List.takeWhile_cons_of_neg hc, List.dropWhile_cons_of_neg hc⟩
  rw [bare?, List.takeWhile_append_of_pos hkey, List.dropWhile_append_of_pos hkey, hends.1,
    hends.2, List.append_nil]
  cases key with
  | nil => exact absurd rfl hne
  | cons c key => rfl

/-- Behind an item no bare key goes on. -/
theorem startsWithChar_further (items : List Item) :
    Text.startsWithChar (items.flatMap Item.further) isKeyChar = false := by
  cases items with
  | nil => rfl
  | cons item items => cases item <;> rfl

/-- The item at the beginning of a path. -/
def first? (t : Text) : Option (Text × Text) :=
  match t with
  | '[' :: t => boxed? t
  | _ => bare? t

/-- The item behind another one. -/
def further? : Text → Option (Text × Text)
  | '[' :: t => boxed? t
  | '.' :: t => bare? t
  | _ => none

theorem exists_of_first? (h : first? t = some (key, rest)) :
    ∃ item : Item, item.WellFormed ∧ t = item.text ++ rest ∧ key = item.key := by
  unfold first? at h
  split at h
  next =>
    obtain ⟨inner, hinner, rfl, rfl⟩ := boxed?_eq_some_iff.mp h
    exact ⟨.boxed inner, hinner, by simp [Item.text], rfl⟩
  next =>
    obtain ⟨hne, hkey, rfl⟩ := bare?_eq_some h
    exact ⟨.bare key, ⟨hne, hkey⟩, rfl, rfl⟩

theorem exists_of_further? (h : further? t = some (key, rest)) :
    ∃ item : Item, item.WellFormed ∧ t = item.further ++ rest ∧ key = item.key := by
  unfold further? at h
  split at h
  next =>
    obtain ⟨inner, hinner, rfl, rfl⟩ := boxed?_eq_some_iff.mp h
    exact ⟨.boxed inner, hinner, by simp [Item.further], rfl⟩
  next =>
    obtain ⟨hne, hkey, rfl⟩ := bare?_eq_some h
    exact ⟨.bare key, ⟨hne, hkey⟩, rfl, rfl⟩
  next => exact absurd h (by simp)

section

variable (hitem : item.WellFormed) (hrest : Text.startsWithChar rest isKeyChar = false)
include hitem hrest

theorem first?_append : first? (item.text ++ rest) = some (item.key, rest) := by
  cases item with
  | bare key =>
    obtain ⟨c, more, rfl⟩ := List.exists_cons_of_ne_nil hitem.1
    have hc : c ≠ '[' := by
      rintro rfl
      exact absurd (hitem.2 _ List.mem_cons_self) (by decide)
    have hbare := bare?_append hitem.1 hitem.2 hrest
    unfold first?
    split
    next h => exact absurd (List.cons.inj h).1 hc
    next => exact hbare
  | boxed inner => exact boxed?_eq_some_iff.mpr ⟨inner, hitem, by simp, rfl⟩

theorem further?_append : further? (item.further ++ rest) = some (item.key, rest) := by
  cases item with
  | bare key => exact bare?_append hitem.1 hitem.2 hrest
  | boxed inner => exact boxed?_eq_some_iff.mpr ⟨inner, hitem, by simp, rfl⟩

end

/-! ## Rows of items -/

theorem more?_cons (fuel : Nat) (c : Char) (t : Text) : more? (fuel + 1) (c :: t) =
    (further? (c :: t)).bind fun e => (more? fuel e.2).map (e.1 :: ·) := by
  have hitem : further? (c :: t) =
      if c = '[' then boxed? t else if c = '.' then bare? t else none := by
    unfold further?
    split
    next h => rw [(List.cons.inj h).1, (List.cons.inj h).2, if_pos rfl]
    next h => rw [(List.cons.inj h).1, (List.cons.inj h).2, if_neg (by decide), if_pos rfl]
    next hbox hdot =>
      rw [if_neg fun h => hbox t (congrArg (· :: t) h),
        if_neg fun h => hdot t (congrArg (· :: t) h)]
  rw [more?, hitem]
  cases if c = '[' then boxed? t else if c = '.' then bare? t else none <;> rfl

theorem read?_eq (t : Text) : read? t =
    (first? (Text.trim t)).bind fun e => (more? e.2.length e.2).map (e.1 :: ·) := by
  unfold read?
  dsimp only
  split
  next key rest h =>
    have hfirst : first? (Text.trim t) = some (key, rest) := h
    rw [hfirst]
    rfl
  next h =>
    have hfirst : first? (Text.trim t) = none := h
    rw [hfirst]
    rfl

theorem length_lt_further (item : Item) (rest : Text) :
    rest.length < (item.further ++ rest).length := by
  cases item with
  | bare key =>
    rw [Item.further, List.length_append, List.length_cons]
    omega
  | boxed inner =>
    rw [Item.further, List.length_append, List.length_cons]
    omega

/-- What follows the first item is read item by item. -/
theorem more?_eq_some_iff : ∀ {fuel : Nat} {t : Text} {keys : List Text}, t.length ≤ fuel →
    (more? fuel t = some keys ↔ ∃ items : List Item, (∀ item ∈ items, item.WellFormed) ∧
      t = items.flatMap Item.further ∧ keys = items.map Item.key)
  | fuel, [], keys, _ => by
    have hnil : more? fuel [] = some [] := by cases fuel <;> rfl
    rw [hnil]
    constructor
    · rintro ⟨-⟩
      exact ⟨[], nofun, rfl, rfl⟩
    · rintro ⟨items, -, htext, rfl⟩
      cases items with
      | nil => rfl
      | cons item items => cases item <;> exact absurd htext (by simp [Item.further])
  | 0, c :: t, _, hfuel => absurd hfuel (by simp)
  | fuel + 1, c :: t, keys, hfuel => by
    rw [more?_cons, Option.bind_eq_some_iff]
    constructor
    · rintro ⟨⟨key, rest⟩, hfurther, hmore⟩
      obtain ⟨item, hitem, htext, rfl⟩ := exists_of_further? hfurther
      obtain ⟨keys', hkeys', rfl⟩ := Option.map_eq_some_iff.mp hmore
      have hrest : rest.length < (c :: t).length := htext ▸ length_lt_further item rest
      obtain ⟨items, hitems, hrest, rfl⟩ :=
        (more?_eq_some_iff (Nat.le_of_lt_succ (hrest.trans_le hfuel))).mp hkeys'
      exact ⟨item :: items, List.forall_mem_cons.mpr ⟨hitem, hitems⟩,
        by rw [htext, hrest, List.flatMap_cons], rfl⟩
    · rintro ⟨_ | ⟨item, items⟩, hitems, htext, rfl⟩
      · exact absurd htext (by simp)
      · obtain ⟨hitem, hitems⟩ := List.forall_mem_cons.mp hitems
        refine ⟨(item.key, items.flatMap Item.further), ?_, ?_⟩
        · rw [htext, List.flatMap_cons]
          exact further?_append hitem (startsWithChar_further items)
        · have hrest := length_lt_further item (items.flatMap Item.further)
          rw [← List.flatMap_cons, ← htext] at hrest
          rw [(more?_eq_some_iff (Nat.le_of_lt_succ (hrest.trans_le hfuel))).mpr
            ⟨items, hitems, rfl, rfl⟩]
          rfl

/-- What is read as a path is a row of items with blanks around it. -/
theorem read?_eq_some_iff : read? t = some keys ↔
    ∃ items : List Item, items ≠ [] ∧ (∀ item ∈ items, item.WellFormed) ∧
      Text.trim t = spell items ∧ keys = items.map Item.key := by
  rw [read?_eq, Option.bind_eq_some_iff]
  constructor
  · rintro ⟨⟨key, rest⟩, hfirst, hmore⟩
    obtain ⟨item, hitem, htext, rfl⟩ := exists_of_first? hfirst
    obtain ⟨keys', hkeys', rfl⟩ := Option.map_eq_some_iff.mp hmore
    obtain ⟨items, hitems, rfl, rfl⟩ := (more?_eq_some_iff (Nat.le_refl _)).mp hkeys'
    exact ⟨item :: items, List.cons_ne_nil _ _, List.forall_mem_cons.mpr ⟨hitem, hitems⟩, htext,
      rfl⟩
  · rintro ⟨_ | ⟨item, items⟩, hne, hitems, htext, rfl⟩
    · exact absurd rfl hne
    · obtain ⟨hitem, hitems⟩ := List.forall_mem_cons.mp hitems
      refine ⟨(item.key, items.flatMap Item.further), ?_, ?_⟩
      · rw [htext]
        exact first?_append hitem (startsWithChar_further items)
      · rw [(more?_eq_some_iff (Nat.le_refl _)).mpr ⟨items, hitems, rfl, rfl⟩]
        rfl

/-! ## Writing -/

theorem isQuote_cases {q : Char} (h : Brackets.isQuote q = true) : q = '\x22' ∨ q = '\x27' := by
  simpa [Brackets.isQuote] using h

theorem isBlank_of_isKeyChar {c : Char} (h : isKeyChar c = true) : Text.isBlank c = false := by
  simp only [isKeyChar, Bool.and_eq_true, Bool.not_eq_true'] at h
  exact h.2

/-- What stands between quotes loses them, and nothing else. -/
theorem unwrap_quoted {q q' : Char} (hq : Brackets.isQuote q = true)
    (hq' : Brackets.isQuote q' = true) (key : Text) : unwrap (q :: (key ++ [q'])) = key := by
  have hblank : ∀ {q : Char}, Brackets.isQuote q = true → Text.isBlank q = false := by
    intro q hq
    rcases isQuote_cases hq with rfl | rfl <;> rfl
  rw [unwrap, Text.trim_enclosed (hblank hq) (hblank hq')]
  refine (if_pos hq).trans ?_
  rcases isQuote_cases hq' with rfl | rfl
  · have hnone : Text.dropTail? ['\x27'] (key ++ ['\x22']) = none := by
      refine Option.eq_none_iff_forall_ne_some.mpr fun inner h => ?_
      have hlast := (List.append_inj' (Text.dropTail?_eq_some_iff.mp h) rfl).2
      exact absurd hlast (by decide)
    rw [hnone, Text.dropTail?_eq_some_iff.mpr rfl]
    rfl
  · rw [Text.dropTail?_eq_some_iff.mpr rfl]
    rfl

theorem unwrap_eq_self (htrim : Text.trim key = key)
    (hquotes : ∀ q inner q', Brackets.isQuote q = true → Brackets.isQuote q' = true →
      key ≠ q :: (inner ++ [q'])) : unwrap key = key := by
  rw [unwrap, htrim]
  cases key with
  | nil => rfl
  | cons q t =>
    dsimp only
    split
    next hq =>
      have hnone : ∀ q', Brackets.isQuote q' = true → Text.dropTail? [q'] t = none := by
        refine fun q' hq' => Option.eq_none_iff_forall_ne_some.mpr fun inner h => ?_
        exact hquotes q inner q' hq hq' (congrArg _ (Text.dropTail?_eq_some_iff.mp h))
      rw [hnone _ rfl, hnone _ rfl]
      rfl
    next => rfl

/-- What writes a key is an item that stands for it. -/
theorem Writes.wellFormed (h : Writes item key) : item.WellFormed ∧ item.key = key := by
  cases h with
  | bare hne hkey => exact ⟨⟨hne, hkey⟩, rfl⟩
  | boxed hbracket htrim hquotes => exact ⟨hbracket, unwrap_eq_self htrim hquotes⟩
  | quoted hq hq' hbracket =>
    have hne : ∀ {q : Char}, Brackets.isQuote q = true → ']' ≠ q := by
      rintro _ hq rfl
      exact absurd hq (by decide)
    exact ⟨by simp [Item.WellFormed, hbracket, hne hq, hne hq'], unwrap_quoted hq hq' key⟩

/-- There are no blanks around a row of items. -/
theorem trim_spell (hitems : ∀ item ∈ items, item.WellFormed) :
    Text.trim (spell items) = spell items := by
  have hboxed : ∀ inner : Text, Text.trim ('[' :: (inner ++ [']'])) = '[' :: (inner ++ [']']) :=
    Text.trim_enclosed rfl rfl
  have hfurther : ∀ {items : List Item}, (∀ item ∈ items, item.WellFormed) →
      Text.trim (items.flatMap Item.further) = items.flatMap Item.further := by
    intro items hitems
    induction items with
    | nil => rfl
    | cons item items ih =>
      obtain ⟨hitem, hitems⟩ := List.forall_mem_cons.mp hitems
      refine Text.trim_append ?_ (ih hitems)
      cases item with
      | bare key =>
        refine Text.trim_eq_self (List.forall_mem_cons.mpr ⟨rfl, fun c hc => ?_⟩)
        exact isBlank_of_isKeyChar (hitem.2 c hc)
      | boxed inner => exact hboxed inner
  cases items with
  | nil => rfl
  | cons item items =>
    obtain ⟨hitem, hitems⟩ := List.forall_mem_cons.mp hitems
    refine Text.trim_append ?_ (hfurther hitems)
    cases item with
    | bare key => exact Text.trim_eq_self fun c hc => isBlank_of_isKeyChar (hitem.2 c hc)
    | boxed inner => exact hboxed inner

/-- A row of items that write keys is read as these keys. -/
theorem read?_spell_of_writes (hne : items ≠ []) (h : List.Forall₂ Writes items keys) :
    read? (spell items) = some keys := by
  have hitems : (∀ item ∈ items, item.WellFormed) ∧ keys = items.map Item.key := by
    clear hne
    induction h with
    | nil => exact ⟨nofun, rfl⟩
    | cons hwrites _ ih =>
      obtain ⟨hitem, hkey⟩ := hwrites.wellFormed
      exact ⟨List.forall_mem_cons.mpr ⟨hitem, ih.1⟩, by rw [List.map_cons, hkey, ih.2]⟩
  exact read?_eq_some_iff.mpr ⟨items, hne, hitems.1, trim_spell hitems.1, hitems.2⟩

/-! ## Looking up -/

/-- The value at which the keys arrive from object to object. -/
def descend (d : Data) (keys : List Text) : Option Data :=
  keys.foldlM (fun d key => d.member? key) d

theorem leads_of_descend : ∀ {keys : List Text} {d found : Data}, descend d keys = some found →
    Leads d (keys.map fun key => [key]) found
  | [], d, found, h => by
    obtain rfl := Option.some.inj h
    exact .here d
  | key :: keys, d, found, h => by
    rw [descend, List.foldlM_cons] at h
    obtain ⟨value, hvalue, hfound⟩ := Option.bind_eq_some_iff.mp h
    cases d with
    | object members => exact .member (List.cons_ne_nil _ _) hvalue (leads_of_descend hfound)
    | _ => exact absurd hvalue (by simp [Data.member?, Data.members])

/-- **A path can be written to every key of the theme.**  Keys that are written bare, in brackets,
or in brackets and quotes are read as they are, and looking such a path up yields the value that
they lead to.  Nothing is read as a path but a row of items with blanks around it. -/
theorem read?_written :
    (∀ items keys, items ≠ [] → List.Forall₂ Writes items keys →
      read? (spell items) = some keys) ∧
    (∀ t keys, read? t = some keys ↔ ∃ items : List Item, items ≠ [] ∧
      (∀ item ∈ items, item.WellFormed) ∧ Text.trim t = spell items ∧
        keys = items.map Item.key) ∧
    ∀ (theme : Theme) items keys value, items ≠ [] → List.Forall₂ Writes items keys →
      descend theme.root keys = some value → theme.get? (spell items) = some value := by
  refine ⟨fun _ _ => read?_spell_of_writes, fun _ _ => read?_eq_some_iff,
    fun theme items keys value hne hwrites hvalue => ?_⟩
  rw [Theme.get?, read?_spell_of_writes hne hwrites, Option.bind_some]
  exact walk_eq_some_iff_leastWay.mpr ⟨_, leastWay_singletons (leads_of_descend hvalue)⟩

/-- A key with a dot in brackets, a bare one, and one with blanks around it in quotes. -/
theorem read?_written_mixed :
    let items : List Item := [.boxed "a.b", .bare "c", .boxed "' d '"]
    let keys := Text.listOf ["a.b", "c", " d "]
    let theme : Theme := ⟨.object [("a", .null), ("a.b", .object [("c", .object [("d", .null),
      (" d ", .text "found")])])]⟩
    items ≠ [] ∧ List.Forall₂ Writes items keys ∧ spell items = "[a.b].c[' d ']".toList ∧
      read? (spell items) = some keys ∧ descend theme.root keys = some (.text "found") ∧
        theme.get? (spell items) = some (.text "found") := by
  intro items keys theme
  have hne : items ≠ [] := List.cons_ne_nil _ _
  have hboxed : Writes (.boxed "a.b") "a.b" := .boxed (by decide) (by decide) fun q _ _ hq _ h =>
    absurd ((List.cons.inj h).1 ▸ hq) (by decide)
  have hquoted : Writes (.boxed "' d '") " d " :=
    @Writes.quoted " d " '\x27' '\x27' rfl rfl (by decide)
  have hwrites : List.Forall₂ Writes items keys :=
    .cons hboxed (.cons (.bare (by decide) (by decide)) (.cons hquoted .nil))
  have hvalue : descend theme.root keys = some (.text "found") := by decide
  obtain ⟨hread, -, hget⟩ := read?_written
  exact ⟨hne, hwrites, by decide, hread items keys hne hwrites, hvalue,
    hget theme items keys _ hne hwrites hvalue⟩

/-- A slash belongs to no item. -/
example : read? "colors.red[500]" = some (Text.listOf ["colors", "red", "500"]) ∧
    read? "colors.red/50" = none := by decide

end Path
end UtilityCss
