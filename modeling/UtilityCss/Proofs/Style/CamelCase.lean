import UtilityCss.Proofs.Style.Spelling
import UtilityCss.Proofs.Text

/-!
# Names are told apart in camel case

A name in lower case can be read off its camel case: a capital stands for a hyphen and the small
letter behind it.  So names that differ are spelled differently, and none is spelled like a key
that stays as it is.  A tree whose keys are such names, custom properties, selectors and at-rules
keeps every entry, where it was, when its names are written in camel case.

No name in camel case has a hyphen left, so writing names in camel case a second time changes
nothing in any tree.
-/

namespace UtilityCss

/-! ## Capitals -/

namespace Text

/-- What holds of the characters in ASCII one by one holds of all of them. -/
theorem of_ascii {p : Char → Prop} (h : ∀ n < 0x80, p (Char.ofNat n)) {c : Char}
    (hc : c.toNat < 0x80) : p c := by
  rw [← Char.ofNat_toNat c]
  exact h _ hc

theorem ofNat_ne_of_lt {n : Nat} (h : '-'.toNat < n) : Char.ofNat n ≠ '-' := by
  unfold Char.ofNat
  by_cases hvalid : n.isValidChar
  · rw [dif_pos hvalid]
    exact fun he => absurd (congrArg Char.toNat he) (Nat.ne_of_gt h)
  · rw [dif_neg hvalid]
    decide

/-- Only a hyphen has a hyphen for its capital. -/
theorem hyphen_notMem_capitals {c : Char} (h : c ≠ '-') : '-' ∉ capitals c := by
  have hsequences : ∀ entry ∈ capitalSequences, ∀ n ∈ entry.2, '-'.toNat < n := by decide
  have hruns : ∀ run ∈ capitalRuns, ('-'.toNat : Int) < run.first + run.offset := by
    decide +kernel
  unfold capitals
  split
  · rename_i hascii
    have hupper : c ≠ '-' → c.toUpper ≠ '-' :=
      of_ascii (p := fun c => c ≠ '-' → c.toUpper ≠ '-') (by decide +kernel) hascii
    rw [List.mem_singleton]
    exact (hupper h).symm
  · split
    · rename_i image himage
      rw [List.mem_map]
      rintro ⟨n, hn, he⟩
      obtain ⟨_, _, hentry, -⟩ := List.lookup_eq_some_iff.mp himage
      exact ofNat_ne_of_lt (hsequences (c.toNat, image) (by rw [hentry]; simp) n hn) he
    · split
      · rename_i run hrun
        rw [List.mem_singleton]
        have hrange := List.find?_some hrun
        have hoffset := hruns run (List.mem_of_find?_eq_some hrun)
        simp only [CaseRun.holds, Bool.and_eq_true, decide_eq_true_eq] at hrange
        exact (ofNat_ne_of_lt (by omega)).symm
      · rw [List.mem_singleton]
        exact h.symm

end Text

namespace StyleTree

open StyleValue (spelled camelized)

/-! ## No hyphen is left -/

theorem hyphen_notMem_runTogether (raised : Bool) (t : Text) : '-' ∉ runTogether raised t := by
  induction t generalizing raised with
  | nil => exact List.not_mem_nil
  | cons c t ih =>
    rw [runTogether]
    split
    · exact ih true
    · rename_i hc
      rw [List.mem_append]
      rintro (hmem | hmem)
      · cases raised with
        | true => exact Text.hyphen_notMem_capitals hc hmem
        | false => exact hc (List.mem_singleton.mp hmem).symm
      · exact ih false hmem

theorem hyphen_notMem_camelCase (key : Text) : '-' ∉ camelCase key := by
  unfold camelCase
  split <;> exact hyphen_notMem_runTogether _ _

/-- A text without hyphens is one word. -/
theorem runTogether_eq_self {t : Text} (h : '-' ∉ t) : runTogether false t = t := by
  induction t with
  | nil => rfl
  | cons c t ih =>
    rw [runTogether, if_neg (Ne.symm (List.ne_of_not_mem_cons h)),
      ih (List.not_mem_of_not_mem_cons h)]
    rfl

theorem camelCase_camelCase (key : Text) : camelCase (camelCase key) = camelCase key := by
  have hnone := hyphen_notMem_camelCase key
  generalize camelCase key = name at hnone
  unfold camelCase
  split
  · exact absurd List.mem_cons_self hnone
  · exact runTogether_eq_self hnone

/-- A key that is spelled out stays as it is. -/
theorem spelled_spelled (key : Text) (value : StyleValue) :
    spelled (spelled key value) (camelized value) = spelled key value := by
  have hkind : (camelized value).isTree = value.isTree := by cases value <;> rfl
  rw [StyleValue.spelled_congr _ hkind, StyleValue.spelled_eq key]
  split
  · rename_i hkept
    rw [StyleValue.spelled_eq, if_pos hkept]
  · rw [StyleValue.spelled_eq, camelCase_camelCase, ite_self]

/-! ## Names in camel case a second time -/

mutual

/-- What is written in camel case is well-keyed and in camel case, whatever the tree. -/
theorem camelEntries_fixed : ∀ {entries : List (Text × StyleValue)}, ∀ e ∈ camelEntries entries,
    WellKeyedValue e.2 ∧ spelled e.1 e.2 = e.1 ∧ InCamelCaseValue e.2
  | [] => fun e he => absurd he List.not_mem_nil
  | (key, value) :: rest => by
    rw [camelEntries_cons, List.forall_mem_cons]
    obtain ⟨hkeyed, hcamel⟩ := camelized_fixed value
    exact ⟨⟨hkeyed, spelled_spelled key value, hcamel⟩, camelEntries_fixed⟩

theorem camelized_fixed : ∀ value : StyleValue,
    WellKeyedValue (camelized value) ∧ InCamelCaseValue (camelized value)
  | .tree entries => by
    have hentries : ∀ e ∈ camelize entries,
        WellKeyedValue e.2 ∧ spelled e.1 e.2 = e.1 ∧ InCamelCaseValue e.2 :=
      fun e he => camelEntries_fixed e (Keyed.mem_of_mem_ofList he)
    exact ⟨wellKeyed_iff.mpr ⟨Keyed.distinct_ofList _, fun e he => (hentries e he).1⟩,
      inCamelCase_iff.mpr fun e he => (hentries e he).2⟩
  | .scalar _ => ⟨trivial, trivial⟩
  | .list _ => ⟨trivial, trivial⟩

end

mutual

theorem camelEntries_eq_self : ∀ {entries : List (Text × StyleValue)}, WellKeyed entries →
    InCamelCase entries → camelEntries entries = entries
  | [], _, _ => rfl
  | (key, value) :: rest, ⟨_, hvalue, hrest⟩, ⟨hkey, hcamel, hcamelRest⟩ => by
    rw [camelEntries_cons, hkey, camelized_eq_self hvalue hcamel,
      camelEntries_eq_self hrest hcamelRest]

theorem camelized_eq_self : ∀ {value : StyleValue}, WellKeyedValue value →
    InCamelCaseValue value → camelized value = value
  | .tree entries, hkeyed, hcamel => by
    show StyleValue.tree (camelize entries) = .tree entries
    rw [camelize_of_spelledApart hkeyed (hcamel.spelledApart hcamel),
      camelEntries_eq_self hkeyed hcamel]
  | .scalar _, _, _ => rfl
  | .list _, _, _ => rfl

end

theorem camelize_camelize (tree : StyleTree) : camelize (camelize tree) = camelize tree := by
  obtain ⟨hkeyed, hcamel⟩ := camelized_fixed (.tree tree)
  exact StyleValue.tree.inj (camelized_eq_self hkeyed hcamel)

/-! ## Reading a name off its camel case -/

/-- The name in lower case: a hyphen and the small letter stand for a capital. -/
def hyphenated (t : Text) : Text := t.flatMap fun c => if c.isUpper then ['-', c.toLower] else [c]

/-- Is the text lower-case ASCII with a letter behind every hyphen? -/
def isHyphenated : Text → Bool
  | [] => true
  | c :: t =>
    c.toNat < 0x80 && !c.isUpper && (c != '-' || Text.startsWithChar t Char.isAlpha)
      && isHyphenated t

/-- Is the text a name that no vendor is put in front of? -/
def isBareName (name : Text) : Bool := Text.startsWithChar name Char.isAlpha && isHyphenated name

/-- Is the key the name of a property, possibly behind one of the vendors that are written with a
capital? -/
def isName (key : Text) : Bool :=
  isBareName key || (Text.dropLead? "-webkit-" key).any isBareName
    || (Text.dropLead? "-moz-" key).any isBareName

/-- Is the key a selector, an at-rule, a custom property or a name? -/
def isOrdinary (key : Text) : Bool := isSelector key || Text.startsWith key "--" || isName key

theorem hyphenated_cons (c : Char) (t : Text) :
    hyphenated (c :: t) = (if c.isUpper then ['-', c.toLower] else [c]) ++ hyphenated t :=
  List.flatMap_cons

theorem isHyphenated_cons {c : Char} {t : Text} : isHyphenated (c :: t) = true ↔
    c.toNat < 0x80 ∧ c.isUpper = false ∧ (c = '-' → Text.startsWithChar t Char.isAlpha = true) ∧
      isHyphenated t = true := by
  simp [isHyphenated, and_assoc, imp_iff_not_or]

theorem hyphenated_eq_self {t : Text} (h : isHyphenated t = true) : hyphenated t = t := by
  induction t with
  | nil => rfl
  | cons c t ih =>
    obtain ⟨-, hupper, -, ht⟩ := isHyphenated_cons.mp h
    rw [hyphenated_cons, hupper, ih ht]
    rfl

/-- The words of a name can be told from the capitals they begin with. -/
theorem hyphenated_runTogether {t : Text} (h : isHyphenated t = true) :
    hyphenated (runTogether false t) = t ∧
      (Text.startsWithChar t Char.isAlpha = true → hyphenated (runTogether true t) = '-' :: t) := by
  induction t with
  | nil => exact ⟨rfl, nofun⟩
  | cons c t ih =>
    obtain ⟨hascii, hupper, hhyphen, ht⟩ := isHyphenated_cons.mp h
    obtain ⟨hsame, hraised⟩ := ih ht
    refine ⟨?_, fun hletter => ?_⟩
    · rw [runTogether]
      split
      · rename_i hc
        rw [hraised (hhyphen hc), hc]
      · rw [if_neg Bool.false_ne_true, List.singleton_append, hyphenated_cons, hupper, hsame]
        rfl
    · have halpha : c.isAlpha = true := hletter
      have hc : c ≠ '-' := by
        rintro rfl
        exact absurd halpha (by decide)
      have hcase : c.toUpper.isUpper = c.isAlpha ∧ (c.isUpper = false → c.toUpper.toLower = c) :=
        Text.of_ascii
          (p := fun c => c.toUpper.isUpper = c.isAlpha ∧ (c.isUpper = false → c.toUpper.toLower = c))
          (by decide +kernel) hascii
      rw [runTogether, if_neg hc, if_pos rfl, Text.capitals_of_ascii hascii, List.singleton_append,
        hyphenated_cons, hcase.1, halpha, if_pos rfl, hcase.2 hupper, hsame]
      rfl

/-- The name of a property is written in camel case from its first letter on, with the vendor. -/
theorem camelCase_of_isName {key : Text} (h : isName key = true) :
    camelCase key = runTogether false key ∧ isHyphenated key = true := by
  simp only [isName, Bool.or_eq_true, Option.any_eq_true, Text.dropLead?_eq_some_iff] at h
  obtain (h | ⟨name, rfl, h⟩) | ⟨name, rfl, h⟩ := h <;>
    obtain ⟨hletter, hname⟩ := (Bool.and_eq_true ..).mp h
  · refine ⟨?_, hname⟩
    unfold camelCase
    split
    · have hhyphen : Char.isAlpha '-' = true := hletter
      exact absurd hhyphen (by decide)
    · rfl
  · exact ⟨rfl, by simp [isHyphenated, Text.startsWithChar_cons, hname, hletter]⟩
  · exact ⟨rfl, by simp [isHyphenated, Text.startsWithChar_cons, hname, hletter]⟩

example : camelCase "-webkit-box-flex" = "WebkitBoxFlex" ∧ camelCase "-ms-flex" = "msFlex" := by
  decide

/-! ## Keys that are told apart -/

/-- Hyphens do not keep a selector from being one. -/
theorem isSelector_hyphenated {key : Text} (h : isSelector key = true) :
    isSelector (hyphenated key) = true := by
  have hmem : '&' ∈ key → '&' ∈ hyphenated key := fun hmem =>
    List.mem_flatMap.mpr ⟨'&', hmem, by decide⟩
  rw [isSelector, Bool.or_eq_true, List.contains_iff_mem] at h ⊢
  refine h.imp (fun hfirst => ?_) hmem
  obtain _ | ⟨c, t⟩ := key
  · exact absurd hfirst Bool.false_ne_true
  · have hchar : ("&.@:#*[>+~" : Text).contains c = true := hfirst
    have hupper : ∀ d ∈ ("&.@:#*[>+~" : Text), d.isUpper = false := by simp
    rw [hyphenated_cons, hupper c (List.contains_iff_mem.mp hchar)]
    exact hchar

/-- No key that stays as it is is spelled like a name that does not. -/
theorem eq_of_eq_runTogether {k l : Text} (hk : isOrdinary k = true) (hl : isHyphenated l = true)
    (hselector : isSelector l = false) (h : k = runTogether false l) : k = l := by
  have hback : hyphenated k = l := h ▸ (hyphenated_runTogether hl).1
  rw [isOrdinary, Bool.or_eq_true, Bool.or_eq_true] at hk
  obtain (hk | hk) | hk := hk
  · -- the name would be a selector itself
    rw [← hback, isSelector_hyphenated hk] at hselector
    cases hselector
  · -- no hyphen is left to begin a custom property
    obtain ⟨rest, rfl⟩ := Text.startsWith_iff.mp hk
    exact absurd (h ▸ List.mem_cons_self) (hyphen_notMem_runTogether false l)
  · rw [← hback, hyphenated_eq_self (camelCase_of_isName hk).2]

/-- An ordinary key stays as it is, or is a name whose words are run together. -/
theorem spelled_cases {key : Text} (h : isOrdinary key = true) (value : StyleValue) :
    spelled key value = key ∨ isHyphenated key = true ∧ isSelector key = false ∧
      spelled key value = runTogether false key := by
  rw [StyleValue.spelled_eq]
  split
  · exact .inl rfl
  · rename_i hkept
    simp only [Bool.or_eq_true, not_or, Bool.not_eq_true] at hkept
    obtain ⟨⟨-, hselector⟩, hcustom⟩ := hkept
    have hname : isName key = true := by
      rwa [isOrdinary, hselector, hcustom, Bool.false_or, Bool.false_or] at h
    obtain ⟨hcamel, hhyphenated⟩ := camelCase_of_isName hname
    exact .inr ⟨hhyphenated, hselector, hcamel⟩

/-- Ordinary keys are spelled alike only if they are the same. -/
theorem eq_of_spelled_eq {k l : Text} (hk : isOrdinary k = true) (hl : isOrdinary l = true)
    {x y : StyleValue} (h : spelled k x = spelled l y) : k = l := by
  obtain hx | ⟨hx, hxs, hxr⟩ := spelled_cases hk x <;>
    obtain hy | ⟨hy, hys, hyr⟩ := spelled_cases hl y
  · rwa [hx, hy] at h
  · exact eq_of_eq_runTogether hk hy hys (by rw [← hx, h, hyr])
  · exact (eq_of_eq_runTogether hl hx hxs (by rw [← hy, ← h, hxr])).symm
  · rw [hxr, hyr] at h
    rw [← (hyphenated_runTogether hx).1, h, (hyphenated_runTogether hy).1]

/-! ## Ordinary trees -/

mutual

/-- Every key of the tree, wherever it is nested, is a selector, an at-rule, a custom property or a
name. -/
def OrdinaryKeys : List (Text × StyleValue) → Prop
  | [] => True
  | (key, value) :: rest => isOrdinary key = true ∧ OrdinaryKeysValue value ∧ OrdinaryKeys rest

/-- The same of a value. -/
def OrdinaryKeysValue : StyleValue → Prop
  | .tree entries => OrdinaryKeys entries
  | .scalar _ | .list _ => True

end

theorem OrdinaryKeys.of_mem {tree : StyleTree} (h : OrdinaryKeys tree) {key : Text}
    {value : StyleValue} (hmem : (key, value) ∈ tree) :
    isOrdinary key = true ∧ OrdinaryKeysValue value := by
  induction tree with
  | nil => exact absurd hmem List.not_mem_nil
  | cons entry rest ih =>
    obtain ⟨hkey, hvalue, hrest⟩ := h
    rcases List.mem_cons.mp hmem with rfl | hmem
    · exact ⟨hkey, hvalue⟩
    · exact ih hrest hmem

theorem OrdinaryKeys.spelled_inj {tree : StyleTree} (h : OrdinaryKeys tree) :
    ∀ e ∈ tree, ∀ f ∈ tree, spelled e.1 e.2 = spelled f.1 f.2 → e.1 = f.1 :=
  fun _ he _ hf => eq_of_spelled_eq (h.of_mem he).1 (h.of_mem hf).1

/-- The keys of a level stay distinct. -/
theorem OrdinaryKeys.nodup_spelled {tree : StyleTree} (h : OrdinaryKeys tree)
    (hkeyed : WellKeyed tree) : (tree.map fun e => spelled e.1 e.2).Nodup := by
  refine List.pairwise_map.mpr ((List.pairwise_map.mp hkeyed.distinct).imp_of_mem ?_)
  exact fun he hf hne hspelled => hne (h.spelled_inj _ he _ hf hspelled)

/-- So every entry of a level is kept, where it was. -/
theorem OrdinaryKeys.camelize_eq {tree : StyleTree} (h : OrdinaryKeys tree)
    (hkeyed : WellKeyed tree) :
    camelize tree = tree.map fun e => (spelled e.1 e.2, camelized e.2) := by
  have hdistinct : Keyed.Distinct (tree.map fun e => (spelled e.1 e.2, camelized e.2)) := by
    rw [Keyed.Distinct, Keyed.keys, List.map_map]
    exact h.nodup_spelled hkeyed
  rw [camelize, camelEntries_eq_map, Keyed.ofList_eq_self hdistinct]

/-- What was nested under a key stays there, in camel case. -/
theorem OrdinaryKeys.lookup_camelize {tree : StyleTree} (h : OrdinaryKeys tree)
    (hkeyed : WellKeyed tree) {key : Text} {entries : List (Text × StyleValue)}
    (hkey : tree.lookup key = some (.tree entries)) :
    (camelize tree).lookup key = some (.tree (camelize entries)) := by
  have hmem : (key, StyleValue.tree (camelize entries)) ∈ camelize tree := by
    rw [h.camelize_eq hkeyed]
    exact List.mem_map.mpr ⟨(key, .tree entries), Keyed.mem_of_lookup hkey, rfl⟩
  exact Keyed.lookup_of_mem (Keyed.distinct_ofList _) hmem

theorem OrdinaryKeys.camelize_level {tree : StyleTree} (h : OrdinaryKeys tree)
    (hkeyed : WellKeyed tree) {path : List Text} {level : List (Text × StyleValue)}
    (hlevel : (StyleValue.tree tree).at? path = some (.tree level)) :
    (level.map fun e => spelled e.1 e.2).Nodup ∧
      (StyleValue.tree (camelize tree)).at? path =
        some (.tree (level.map fun e => (spelled e.1 e.2, camelized e.2))) := by
  induction path generalizing tree with
  | nil =>
    obtain rfl : tree = level := StyleValue.tree.inj (Option.some.inj hlevel)
    exact ⟨h.nodup_spelled hkeyed, by rw [StyleValue.at?, h.camelize_eq hkeyed]⟩
  | cons key path ih =>
    obtain ⟨value, hvalue, hbelow⟩ := Option.bind_eq_some_iff.mp hlevel
    cases value with
    | tree entries =>
      have hentries := (h.of_mem (Keyed.mem_of_lookup hvalue)).2
      rw [StyleValue.at?, h.lookup_camelize hkeyed hvalue, Option.bind_some]
      exact ih hentries (hkeyed.value hvalue) hbelow
    | scalar text => cases path <;> cases hbelow
    | list items => cases path <;> cases hbelow

/-- Writing names in camel case loses nothing: of a tree whose keys are custom properties,
selectors, at-rules and names of properties, distinct keys of a level stay distinct, and every level
keeps its entries, in their order and with their values.  Done a second time it changes no tree. -/
theorem camelize_faithful : (∀ tree : StyleTree, WellKeyed tree → OrdinaryKeys tree →
      ∀ (path : List Text) (level : List (Text × StyleValue)),
        (StyleValue.tree tree).at? path = some (.tree level) →
          (level.map fun e => spelled e.1 e.2).Nodup ∧
            (StyleValue.tree (camelize tree)).at? path =
              some (.tree (level.map fun e => (spelled e.1 e.2, camelized e.2)))) ∧
    ∀ tree : StyleTree, camelize (camelize tree) = camelize tree :=
  ⟨fun _ hkeyed h _ _ hlevel => h.camelize_level hkeyed hlevel, camelize_camelize⟩

theorem camelize_faithful_hover :
    let level : StyleTree := [("-webkit-box-flex", .scalar "1"), ("box-flex", .list ["1", "2"])]
    let tree : StyleTree := [("--gap-x", .scalar "2px"), ("font-size", .scalar "1px"),
      ("@media print", .tree [("&:hover", .tree level)])]
    (StyleValue.tree (camelize tree)).at? ["@media print", "&:hover"] =
        some (.tree [("WebkitBoxFlex", .scalar "1"), ("boxFlex", .list ["1", "2"])]) ∧
      camelize (camelize tree) = camelize tree := by
  intro level tree
  have hkeyed : WellKeyed tree := by
    refine ⟨by decide, trivial, by decide, trivial, by decide, ?_, trivial⟩
    exact ⟨by decide, ⟨by decide, trivial, by decide, trivial, trivial⟩, trivial⟩
  have hordinary : OrdinaryKeys tree := by
    refine ⟨by decide, trivial, by decide, trivial, by decide, ?_, trivial⟩
    exact ⟨by decide, ⟨by decide, trivial, by decide, trivial, trivial⟩, trivial⟩
  exact ⟨(camelize_faithful.1 tree hkeyed hordinary ["@media print", "&:hover"] level rfl).2,
    camelize_faithful.2 tree⟩

end StyleTree
end UtilityCss
