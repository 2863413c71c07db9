import UtilityCss.Proofs.ClassList.Modified
import UtilityCss.Proofs.Evaluation.Apart
import UtilityCss.Proofs.Evaluation.Expansion
import UtilityCss.Proofs.Evaluation.Static
import UtilityCss.Proofs.Value.PlainColor

/-!
# Colors by name and in brackets

A utility that takes colors finds them by name in its table, and accepts them in brackets.  Among
the utilities that are registered under its key it is the only one to take a color if the others
have no entry of that name and no kind that accepts the value.  Then both ways lead to the style
of that utility, with the opacity that the modifier stands for.

A modifier that stands for no opacity leaves the entry without a style, and no other reading of the
name has one.
-/

namespace UtilityCss

open ModifierText (suffix)
open Value (Kind)

namespace Value

/-- The color as it is declared, with an opacity or with the one it leaves open taken as full. -/
def shade (color : Text) : Option Text → Text
  | some opacity => (withOpacity? color opacity).getD color
  | none => withoutOpacity color

theorem finish_color (color : Text) (opacity : Option Text) :
    Kind.color.finish color false opacity = some (shade color opacity) := by
  cases opacity <;> rfl

end Value

namespace LookupUtility

/-- The utility takes colors before anything else, and its style is one of the color alone. -/
structure Paints (u : LookupUtility) (style : Text → StyleTree) : Prop where
  color : u.flags.color = true
  kinds : ∃ more, u.kinds = .color :: more
  render : ∀ text info, u.render text info = style text
  ne_nil : ∀ text, style text ≠ []
  post : u.post = none

/-- The utility has no entry of the name, without or with the modifier, and accepts the color by
none of its kinds. -/
structure Ignores (u : LookupUtility) (name color : Text) (m : Option ModifierText) : Prop where
  bare : u.values.lookup name = none
  modified : u.values.lookup (name ++ suffix m) = none
  kinds : ∀ kind ∈ u.kinds, kind.accepts color false = false

variable {u : LookupUtility} {style : Text → StyleTree} {name color : Text}
  {m : Option ModifierText}

theorem Paints.finish? (h : u.Paints style) (text : Text) (info : RenderInfo) :
    u.finish? text info = some (style text) := by
  have hne : (style text).isEmpty = false := List.isEmpty_eq_false_iff.mpr (h.ne_nil text)
  rw [LookupUtility.finish?, h.render, hne, h.post]
  rfl

end LookupUtility

/-! ## Names of entries -/

/-- The reading of a name with a modifier behind it as an entry of what is registered under the
key. -/
def Reading.entry (key name : Text) (m : Option ModifierText) : Reading :=
  ⟨key, some (name ++ suffix m), some name, false, m⟩

/-- A text is split at its first hyphen or at one behind that. -/
theorem eq_or_longer {key name key' name' : Text} (hhyphen : '-' ∉ key)
    (h : key ++ '-' :: name = key' ++ '-' :: name') :
    key' = key ∧ name' = name ∨ ∃ rest, key' = key ++ '-' :: rest := by
  rcases List.append_eq_append_iff.mp h with ⟨more, hmore, hrest⟩ | ⟨more, hmore, hrest⟩
  · cases more with
    | nil => exact .inl ⟨hmore.trans (List.append_nil key), (List.cons.inj hrest).2.symm⟩
    | cons x more =>
      obtain rfl := (List.cons.inj hrest).1
      exact .inr ⟨more, hmore⟩
  · cases more with
    | nil => exact .inl ⟨(hmore.trans (List.append_nil key')).symm, (List.cons.inj hrest).2⟩
    | cons x more =>
      refine absurd ?_ hhyphen
      rw [hmore, ← (List.cons.inj hrest).1]
      exact List.mem_append_right _ List.mem_cons_self

/-- A key, a hyphen, and a name with a modifier: one of the readings is the entry of that name, and
all others have a longer key. -/
theorem Reading.exists_all?_entry {α : Type} {table : SpecTable α} {isLookup : α → Bool}
    {key name : Text} {m : Option ModifierText} (hkey : key ≠ []) (hhyphen : '-' ∉ key)
    (hname : name ≠ []) (hlookup : (table.specs key).any isLookup = true) : ∃ readings,
      all? table isLookup (key ++ '-' :: (name ++ suffix m)) m = some readings ∧
      entry key name m ∈ readings ∧
      ∀ s ∈ readings, s = entry key name m ∨ ∃ rest, s.key = key ++ '-' :: rest := by
  have hpositive : ∀ rest, positive? (key ++ rest) = none :=
    positive?_append_eq_none hkey fun h => hhyphen (List.mem_of_head? h)
  let core := key ++ '-' :: name
  have htext : key ++ '-' :: (name ++ suffix m) = core ++ suffix m := by simp [core]
  have hcore : core ≠ [] := List.append_ne_nil_of_left_ne_nil hkey _
  have hparted := parted_append core (ModifierText.spells_suffix m)
  rw [if_neg hcore, if_neg hcore, if_neg hcore] at hparted
  obtain ⟨readings, hall, splits, hreadings, hsplits, -⟩ := hparted.listed table isLookup
  refine ⟨readings, htext ▸ hall, ?_, fun s hs => ?_⟩
  · rw [hreadings]
    refine List.mem_append_right _ ((hsplits _).mpr ⟨⟨?_, rfl, hkey, name, hname, rfl, rfl, rfl⟩,
      hlookup⟩)
    rw [hpositive]
    rfl
  · rw [hreadings] at hs
    rcases List.mem_append.mp hs with hs | hs
    · -- without a value the key is all of the name, with or without its modifier
      have hunvalued : ∀ {rest : Text} {own : Option ModifierText},
          s ∈ unvalued (key ++ '-' :: rest) own → ∃ rest, s.key = key ++ '-' :: rest := by
        intro rest own hmem
        rw [unvalued, hpositive] at hmem
        exact ⟨rest, by rw [List.mem_singleton.mp hmem]⟩
      rcases List.mem_append.mp (List.mem_filter.mp hs).1 with hmem | hmem
      · rw [← htext] at hmem
        exact .inr (hunvalued hmem)
      · split at hmem
        · exact .inr (hunvalued hmem)
        · cases hmem
    · -- split at the first hyphen it is the entry, and behind that the key is longer
      obtain ⟨⟨hnegative, hmodifier, -, value, -, hvalue, hfull, hcut⟩, -⟩ := (hsplits s).mp hs
      rw [hpositive] at hnegative
      rw [hnegative] at hcut
      refine (eq_or_longer hhyphen
        (show key ++ '-' :: name = s.key ++ '-' :: value from hcut)).imp_left ?_
      rintro ⟨hskey, rfl⟩
      obtain ⟨skey, sfull, svalue, snegative, smodifier⟩ := s
      obtain rfl : skey = key := hskey
      obtain rfl : smodifier = m := hmodifier
      obtain rfl : svalue = some value := hvalue
      obtain rfl : sfull = some (value ++ suffix smodifier) := hfull
      obtain rfl : snegative = false := hnegative
      rfl

/-! ## One candidate -/

/-- Only one of the elements is mapped to anything. -/
theorem filterMap_of_sole {α β : Type} {f : α → Option β} {front behind : List α} {a : α}
    (h : ∀ b ∈ front ++ behind, f b = none) :
    (front ++ a :: behind).filterMap f = (f a).toList := by
  have hfront : front.filterMap f = [] :=
    List.filterMap_eq_nil_iff.mpr fun b hb => h b (List.mem_append_left _ hb)
  have hbehind : behind.filterMap f = [] :=
    List.filterMap_eq_nil_iff.mpr fun b hb => h b (List.mem_append_right _ hb)
  rw [List.filterMap_append, hfront, List.nil_append, List.filterMap_cons]
  cases f a <;> simp [hbehind]

namespace Candidate

theorem choose?_nil (key : Text) : choose? key [] = none := rfl

theorem choose?_singleton (key : Text) (spec : UtilitySpec) (tree : StyleTree) :
    choose? key [⟨spec, tree, true⟩] = some (.ok ⟨key, spec, tree⟩) := rfl

end Candidate

namespace Environment

variable {env : Environment} {key name color : Text} {m : Option ModifierText}

/-! ## One entry -/

section

variable {u : LookupUtility} {style : Text → StyleTree}

theorem entry?_of_lookup {entry : Data} (hdefault : name ≠ "DEFAULT")
    (hentry : u.values.lookup name = some entry)
    (hwhole : m ≠ none → u.values.lookup (name ++ suffix m) = none) :
    u.entry? (.entry key name m) = some (entry, m) := by
  have hfull : ((some (name ++ suffix m)).filter (· != name)).bind
      (fun full => u.values.lookup full) = none := by
    cases m with
    | none => simp [suffix]
    | some m => rw [Option.bind_eq_none_iff]; intro full hfull; rw [← hwhole (by simp)]; simp_all
  rw [LookupUtility.entry?, Reading.entry]
  dsimp only
  rw [if_neg hdefault, hfull]
  dsimp only
  rw [hentry]
  rfl

/-- A value that is not negative is rendered as its entry is formatted. -/
theorem renderEntry?_eq {r : Reading} (hnegative : r.negative = false) :
    env.renderEntry? u r = (u.entry? r).bind fun (entry, modifier) =>
      (env.opacityFor? u.tableKind modifier).bind fun opacity =>
        (u.tableKind.formatEntry? entry false opacity none).bind fun text =>
          u.finish? text
            { modifier := passedOn u.tableKind modifier, kind := none, entry := some entry
              theme := env.theme } := by
  unfold renderEntry?
  rw [hnegative]
  rfl

/-- An entry that is a color has the style of that color with the opacity of the modifier, or none
if the modifier stands for no opacity. -/
theorem renderEntry?_color (h : u.Paints style) (hdefault : name ≠ "DEFAULT")
    (hentry : u.values.lookup name = some (.text color))
    (hwhole : m ≠ none → u.values.lookup (name ++ suffix m) = none) :
    env.renderEntry? u (.entry key name m) =
      (env.opacityFor? .color m).map fun opacity => style (Value.shade color opacity) := by
  have hkind : u.tableKind = .color := by rw [LookupUtility.tableKind, h.color]; rfl
  have hformat : ∀ opacity, Kind.color.formatEntry? (.text color) false opacity none =
      some (Value.shade color opacity) := fun opacity => by
    rw [← Value.finish_color]
    cases opacity <;> rfl
  rw [renderEntry?_eq rfl, entry?_of_lookup hdefault hentry hwhole, Option.bind_some, hkind]
  dsimp only
  cases env.opacityFor? .color m with
  | none => rfl
  | some opacity =>
    rw [Option.bind_some, hformat]
    exact h.finish? _ _

theorem renderEntry?_of_ignores (h : u.Ignores name color m) :
    env.renderEntry? u (.entry key name m) = none := by
  have hentry : u.entry? (.entry key name m) = none := by
    rw [LookupUtility.entry?, Reading.entry]
    dsimp only
    split
    · rfl
    · rw [h.bare]
      cases hfull : (some (name ++ suffix m)).filter (· != name) with
      | none => rfl
      | some full =>
        obtain rfl := Option.some.inj (Option.filter_eq_some_iff.mp hfull).1
        rw [Option.bind_some, h.modified]
        rfl
  rw [renderEntry?_eq rfl, hentry]
  rfl

/-- In brackets a color has the same style, if the modifier stands for an opacity. -/
theorem renderBracketed?_color (h : u.Paints style) (hcolor : Kind.color.accepts color false = true)
    (htrim : Text.trim color = color) (htag : Value.splitTag? color = none)
    {opacity : Option Text} (hopacity : env.opacityFor? .color m = some opacity) :
    env.renderBracketed? u color false m = some (style (Value.shade color opacity), true) := by
  obtain ⟨more, hkinds⟩ := h.kinds
  have hformat : Kind.color.formatValue? color false false opacity =
      some (Value.shade color opacity) := by
    rw [Kind.formatValue?]
    simp only [htrim, hcolor, if_true]
    exact Value.finish_color color opacity
  rw [renderBracketed?, Bool.false_and, if_neg Bool.false_ne_true, htag]
  dsimp only
  rw [hkinds, renderKinds?, hopacity]
  simp only [hformat, h.finish?]
  rfl

theorem renderBracketed?_of_ignores (h : u.Ignores name color m)
    (htag : Value.splitTag? color = none) : env.renderBracketed? u color false m = none := by
  rw [renderBracketed?, Bool.false_and, if_neg Bool.false_ne_true, htag]
  dsimp only
  rw [← Option.not_isSome_iff_eq_none, Option.isSome_iff_exists]
  rintro ⟨⟨tree, strong⟩, htree⟩
  obtain ⟨kind, hkind, haccepts, -⟩ := exists_of_renderKinds? htree
  rw [h.kinds kind hkind] at haccepts
  cases haccepts

end

/-! ## The only reading -/

theorem candidates_nil (r : Reading) (led : Bool) : env.candidates [] r led = [] := by
  simp [candidates, staticCandidate?]

/-- If nothing is offered for any reading, nothing is found. -/
theorem decide?_of_none {led : Bool} : ∀ {readings : List Reading},
    (∀ s ∈ readings, env.offered led s = []) → env.decide? led readings = .error .notFound
  | [], _ => rfl
  | s :: rest, h => by
    obtain ⟨hs, hrest⟩ := List.forall_mem_cons.mp h
    rw [decide?_cons, hs, Candidate.choose?_nil, Option.getD_none, decide?_of_none hrest]

/-- If nothing is offered for the other readings, the one that is left decides. -/
theorem decide?_of_sole {led : Bool} {r : Reading} : ∀ {readings : List Reading}, r ∈ readings →
    (∀ s ∈ readings, s ≠ r → env.offered led s = []) →
      env.decide? led readings =
        (Candidate.choose? r.key (env.offered led r)).getD (.error .notFound)
  | s :: rest, hr, hsole => by
    obtain ⟨hs, hrest⟩ := List.forall_mem_cons.mp hsole
    rw [decide?_cons]
    by_cases hsr : s = r
    · subst hsr
      rcases choose?_offered env led s with ⟨hnone, hchoose⟩ | ⟨decision, hchoose, -⟩
      · have hall : ∀ t ∈ rest, env.offered led t = [] := fun t ht => by
          by_cases hts : t = s
          · rw [hts, hnone]
          · exact hrest t ht hts
        rw [hchoose, Option.getD_none, Option.getD_none, decide?_of_none hall]
      · rw [hchoose, Option.getD_some, Option.getD_some]
    · rw [hs hsr, Candidate.choose?_nil, Option.getD_none]
      exact decide?_of_sole ((List.mem_cons.mp hr).resolve_left (Ne.symm hsr)) hrest

theorem allows_of_lead (hlead : env.settings.lead = []) (flags : Flags) (led : Bool) :
    env.allows flags led = true := by
  rw [allows, hlead]
  rfl

/-- The candidate that a spec makes for a reading if it takes values. -/
def lookupCandidate? (env : Environment) (r : Reading) (spec : UtilitySpec) : Option Candidate :=
  match spec.rule with
  | .fixed .. => none
  | .lookup u => (env.renderEntry? u r).map fun tree => ⟨spec, tree, true⟩

theorem lookupCandidate?_of_lookup {spec : UtilitySpec} {u : LookupUtility}
    (h : spec.rule = .lookup u) (r : Reading) :
    env.lookupCandidate? r spec = (env.renderEntry? u r).map fun tree => ⟨spec, tree, true⟩ := by
  rw [lookupCandidate?, h]

/-- What is offered for an entry, where names have no configured beginning. -/
theorem offered_entry (hlead : env.settings.lead = []) :
    env.offered false (.entry key name m) =
      (env.registry.utilities.specs key).filterMap (env.lookupCandidate? (.entry key name m)) := by
  rw [offered, candidates]
  simp only [allows_of_lead hlead, List.filter_true, Reading.entry, Option.isSome_some,
    Bool.true_or, if_true, Option.toList_none, List.nil_append]
  rfl

/-- If no key goes on behind a key and a hyphen, what is written behind them is read as an entry
and as nothing else. -/
theorem utility_of_entry (hlead : env.settings.lead = []) (hkey : key ≠ []) (hhyphen : '-' ∉ key)
    (hname : name ≠ []) (hlonger : ∀ rest, env.registry.utilities.specs (key ++ '-' :: rest) = [])
    (hlookup : (env.registry.utilities.specs key).any UtilitySpec.isLookup = true) :
    env.utility (key ++ '-' :: (name ++ suffix m)) m =
      (Candidate.choose? key (env.offered false (.entry key name m))).getD (.error .notFound) := by
  obtain ⟨readings, hall, hentry, hothers⟩ :=
    Reading.exists_all?_entry (m := m) hkey hhyphen hname hlookup
  have hutility : env.utility (key ++ '-' :: (name ++ suffix m)) m =
      env.decide? false readings := by
    simp only [utility, stripLead_of_lead_eq_nil hlead, hall]
  rw [hutility]
  refine decide?_of_sole hentry fun s hs hne => ?_
  obtain ⟨rest, hrest⟩ := (hothers s hs).resolve_left hne
  rw [offered, hrest, hlonger, candidates_nil]

end Environment

/-! ## The only utility for a color -/

/-- One of the specs is of a utility that takes colors and has this one under the name.  The others
have no entry of that name and do not accept the color. -/
structure UtilitySpec.SoleColor (specs : List UtilitySpec) (name color : Text)
    (m : Option ModifierText) (spec : UtilitySpec) (style : Text → StyleTree) : Prop where
  rule : ∃ u, spec.rule = .lookup u ∧ u.Paints style ∧ u.values.lookup name = some (.text color) ∧
    (m ≠ none → u.values.lookup (name ++ suffix m) = none)
  others : ∃ front behind, specs = front ++ spec :: behind ∧
    ∀ other ∈ front ++ behind, ∃ v, other.rule = .lookup v ∧ v.Ignores name color m

namespace Environment

variable {env : Environment} {key name color : Text} {m : Option ModifierText}
  {spec : UtilitySpec} {style : Text → StyleTree}

/-- By its name a color has its style with the opacity of the modifier.  If the modifier stands for
no opacity, the name is not found. -/
theorem utility_of_soleColor (hlead : env.settings.lead = []) (hkey : key ≠ [])
    (hhyphen : '-' ∉ key) (hname : name ≠ []) (hdefault : name ≠ "DEFAULT")
    (hlonger : ∀ rest, env.registry.utilities.specs (key ++ '-' :: rest) = [])
    (h : UtilitySpec.SoleColor (env.registry.utilities.specs key) name color m spec style) :
    env.utility (key ++ '-' :: (name ++ suffix m)) m =
      match env.opacityFor? .color m with
      | some opacity => .ok ⟨key, spec, style (Value.shade color opacity)⟩
      | none => .error .notFound := by
  obtain ⟨u, hrule, hpaints, hentry, hwhole⟩ := h.rule
  obtain ⟨front, behind, hspecs, hothers⟩ := h.others
  have hlookup : (env.registry.utilities.specs key).any UtilitySpec.isLookup = true := by
    refine List.any_eq_true.mpr ⟨spec, hspecs ▸ List.mem_append_right _ List.mem_cons_self, ?_⟩
    rw [UtilitySpec.isLookup, hrule]
  rw [utility_of_entry hlead hkey hhyphen hname hlonger hlookup, offered_entry hlead, hspecs,
    filterMap_of_sole, lookupCandidate?_of_lookup hrule,
    renderEntry?_color hpaints hdefault hentry hwhole]
  · cases env.opacityFor? .color m <;> rfl
  · intro other hother
    obtain ⟨v, hv, hignores⟩ := hothers other hother
    rw [lookupCandidate?_of_lookup hv, renderEntry?_of_ignores hignores, Option.map_none]

/-- In brackets a color has that style too. -/
theorem bracketedUtility_of_soleColor (hlead : env.settings.lead = []) (hkey : key ≠ [])
    (hhyphen : '-' ∉ key) (hcolor : Value.IsPlainColor color)
    (h : UtilitySpec.SoleColor (env.registry.utilities.specs key) name color m spec style)
    {opacity : Option Text} (hopacity : env.opacityFor? .color m = some opacity) :
    env.bracketedUtility key color m = .ok ⟨key, spec, style (Value.shade color opacity)⟩ := by
  obtain ⟨u, hrule, hpaints, -, -⟩ := h.rule
  obtain ⟨front, behind, hspecs, hothers⟩ := h.others
  have hreadings : bracketedReadings key = [(key, false)] := by
    have hpositive := Reading.positive?_append_eq_none hkey
      (fun h => hhyphen (List.mem_of_head? h)) []
    rw [List.append_nil] at hpositive
    rw [bracketedReadings, hpositive]
    rfl
  have hoffered : env.offeredBracketed color m false (key, false) =
      [⟨spec, style (Value.shade color opacity), true⟩] := by
    rw [offeredBracketed, bracketedCandidates]
    simp only [allows_of_lead hlead, List.filter_true]
    rw [hspecs, filterMap_of_sole, hrule]
    · dsimp only
      rw [renderBracketed?_color hpaints hcolor.accepts hcolor.trim hcolor.splitTag?_eq_none
        hopacity]
      rfl
    · intro other hother
      obtain ⟨v, hv, hignores⟩ := hothers other hother
      rw [hv]
      dsimp only
      rw [renderBracketed?_of_ignores hignores hcolor.splitTag?_eq_none]
      rfl
  rw [bracketedUtility_eq, stripLead_of_lead_eq_nil hlead, hreadings, List.foldr_cons, hoffered,
    Candidate.choose?_singleton]
  rfl

/-! ## Class lists of one color -/

theorem styleOf_of_soleColor {specs : List UtilitySpec}
    (h : UtilitySpec.SoleColor specs name color m spec style) (apply : Text → Report StyleTree)
    (key : Text) (tree : StyleTree) : env.styleOf apply ⟨key, spec, tree⟩ = pure tree := by
  obtain ⟨u, hrule, -⟩ := h.rule
  rw [styleOf, UtilitySpec.isLookup, hrule]
  rfl

variable (hlead : env.settings.lead = []) (himportant : env.settings.important = .all false)
  (hkey : ClassList.IsCore env.separator key) (hhyphen : '-' ∉ key)
  (h : UtilitySpec.SoleColor (env.registry.utilities.specs key) name color m spec style)
  (hdistinct : ∀ text, Keyed.Distinct (style text)) (hm : ∀ x ∈ m, x.Writable env.separator)

include hlead himportant hkey hhyphen h hdistinct hm

/-- The name of a color with a modifier, behind the key and a hyphen. -/
theorem evaluate_named (hname : name ≠ []) (hdefault : name ≠ "DEFAULT")
    (hcore : ClassList.IsCore env.separator (key ++ '-' :: name))
    (hlonger : ∀ rest, env.registry.utilities.specs (key ++ '-' :: rest) = []) :
    let named := key ++ '-' :: (name ++ suffix m)
    env.evaluate named =
      match env.opacityFor? .color m with
      | some opacity => pure ⟨style (Value.shade color opacity), []⟩
      | none => ⟨{}, [⟨.utilityNotFound, ⟨0, named⟩⟩], false⟩ := by
  intro named
  have hnamed : (key ++ '-' :: name) ++ suffix m = named := by
    rw [List.append_assoc, List.cons_append]
  obtain ⟨own, d, hhead, hend, hown, hclosed⟩ := ClassList.Head.exists_read?_plain hcore hm
  rw [hnamed] at hhead hclosed
  have hread := ClassList.read_of_head hhead hend
  have hfound : env.utilityOf (.plain ⟨0, named⟩ own) = env.utility named m := by
    rw [← hown]
    rfl
  rw [utility_of_soleColor hlead hkey.ne_nil hhyphen hname hdefault hlonger h] at hfound
  cases hopacity : env.opacityFor? .color m with
  | none =>
    rw [hopacity] at hfound
    exact evaluate_of_notFound hread hclosed hfound
  | some opacity =>
    rw [hopacity] at hfound
    exact evaluate_of_found himportant hread hclosed hfound (styleOf_of_soleColor h _ _ _)
      (hdistinct _)

/-- The color itself in brackets with a modifier that stands for an opacity, behind the key and a
hyphen. -/
theorem evaluate_bracketed (hcolor : Value.IsPlainColor color) {opacity : Option Text}
    (hopacity : env.opacityFor? .color m = some opacity) :
    env.evaluate (key ++ '-' :: '[' :: (color ++ ']' :: suffix m)) =
      pure ⟨style (Value.shade color opacity), []⟩ := by
  obtain ⟨inner, own, d, hhead, hend, hinner, hown, hclosed⟩ :=
    ClassList.Head.exists_read?_bracketed hkey hcolor.sealed hm
  have hfound : env.utilityOf (.bracketed ⟨0, key⟩ inner own true) =
      env.bracketedUtility key color m := by
    rw [← hown, ← hcolor.bracketed_value env.theme, ← hinner]
    rfl
  rw [bracketedUtility_of_soleColor hlead hkey.ne_nil hhyphen hcolor h hopacity] at hfound
  exact evaluate_of_found himportant (ClassList.read_of_head hhead hend) hclosed hfound
    (styleOf_of_soleColor h _ _ _) (hdistinct _)

end Environment
end UtilityCss
