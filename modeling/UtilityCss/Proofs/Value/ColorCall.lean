import UtilityCss.Proofs.Split
import UtilityCss.Proofs.Value.PlainColor

/-!
# Calls of color functions

A call is a color if it has enough channels.  They are taken from what stands in front of the first
slash, wherever that is; what follows the slash is one more of them, trimmed, if there are too few.
-/

namespace UtilityCss

namespace Text

/-- A cut at the first character of a class ends what is in front of that character. -/
theorem cutAt?_eq_of_ne {c : Char} {t u : Text} (ht : ∀ x ∈ t, x ≠ c) :
    cutAt? (· = c) (t ++ c :: u) = some (t, u) :=
  cutAt?_eq_some_iff.mpr ⟨c, decide_eq_true rfl, fun x hx => decide_eq_false (ht x hx), rfl⟩

/-! ## Occurrences on one side of a character -/

section

variable {part t u : Text} {c : Char}

/-- What occurs in a text and has some character of it not in it occurs on one side of that
character. -/
theorem includes_or_of_append (hc : c ∉ part) (h : includes (t ++ c :: u) part = true) :
    includes t part = true ∨ includes u part = true := by
  obtain ⟨a, b, hab⟩ := includes_iff.mp h
  rw [List.append_assoc] at hab
  rcases append_eq_append_cons hab.symm with ⟨v, rfl, rfl⟩ | ⟨v, rfl, hv⟩
  · exact .inr (includes_iff.mpr ⟨v, b, (List.append_assoc ..).symm⟩)
  · rcases append_eq_append_cons hv with ⟨w, rfl, -⟩ | ⟨w, rfl, -⟩
    · exact absurd (by simp) hc
    · exact .inl (includes_iff.mpr ⟨a, w, (List.append_assoc ..).symm⟩)

/-- A text begins with a part or not, whatever follows a character that is not in the part. -/
theorem startsWith_append_cons (hc : c ∉ part) :
    startsWith (t ++ c :: u) part = startsWith t part := by
  refine Bool.eq_iff_iff.mpr ⟨fun h => ?_, fun h => ?_⟩
  · obtain ⟨v, hv⟩ := startsWith_iff.mp h
    rcases append_eq_append_cons hv.symm with ⟨w, rfl, -⟩ | ⟨w, rfl, -⟩
    · exact absurd (by simp) hc
    · exact startsWith_iff.mpr ⟨w, rfl⟩
  · obtain ⟨v, rfl⟩ := startsWith_iff.mp h
    exact startsWith_iff.mpr ⟨v ++ c :: u, List.append_assoc ..⟩

theorem replaceFrom_append (hpart : part ≠ []) (hc : c ∉ part) (value u : Text) :
    ∀ {skip : Nat} {t : Text}, skip ≤ t.length → replaceFrom part value skip (t ++ c :: u) =
      replaceFrom part value skip t ++ c :: replaceAll part value u
  | 0, [], _ => by
    have hstart : startsWith (c :: u) part = false := by
      rw [show c :: u = [] ++ c :: u from rfl, startsWith_append_cons hc]
      obtain ⟨x, rest, rfl⟩ := List.exists_cons_of_ne_nil hpart
      rfl
    exact if_neg (by rw [hstart]; exact Bool.false_ne_true)
  | skip + 1, x :: t, h => by
    have hskip : skip ≤ t.length := Nat.le_of_succ_le_succ h
    have hrest := replaceFrom_append hpart hc value u hskip
    exact hrest
  | 0, x :: t, _ => by
    have hstart : startsWith (x :: (t ++ c :: u)) part = startsWith (x :: t) part :=
      startsWith_append_cons (t := x :: t) hc
    rw [List.cons_append, replaceFrom, replaceFrom, hstart]
    split
    next h =>
      obtain ⟨v, hv⟩ := startsWith_iff.mp h
      have hlength := congrArg List.length hv
      rw [List.length_cons, List.length_append] at hlength
      rw [replaceFrom_append hpart hc value u (by omega), List.append_assoc]
    next => rw [replaceFrom_append hpart hc value u (Nat.zero_le _), List.cons_append]

/-- What does not occur is not replaced. -/
theorem replaceAll_eq_self (value : Text) : ∀ {t : Text}, includes t part = false →
    replaceAll part value t = t
  | [], _ => rfl
  | x :: t, h => by
    have hstart : startsWith (x :: t) part = false := by
      by_contra hstart
      obtain ⟨v, hv⟩ := startsWith_iff.mp (Bool.not_eq_false _ ▸ hstart)
      exact Bool.false_ne_true (h.symm.trans (includes_iff.mpr ⟨[], v, hv⟩))
    have hrest : includes t part = false := by
      by_contra hrest
      obtain ⟨a, b, hab⟩ := includes_iff.mp (Bool.not_eq_false _ ▸ hrest)
      exact Bool.false_ne_true (h.symm.trans (includes_iff.mpr ⟨x :: a, b, by rw [hab]; rfl⟩))
    rw [replaceAll, replaceFrom, if_neg (by rw [hstart]; exact Bool.false_ne_true)]
    exact congrArg (x :: ·) (replaceAll_eq_self value hrest)

end

end Text

namespace Value

/-- The number of channels that a color function takes. -/
def channelCount (name : Text) : Nat := if name = "color" then 4 else 3

/-- The name under which a color function is kept. -/
def keptName (name : Text) : Text :=
  if name = "rgba" then "rgb" else if name = "hsla" then "hsl" else name

/-- A call as it is written. -/
def callText (name arguments : Text) : Text := name ++ '(' :: (arguments ++ [')'])

/-- What channels are looked for in. -/
def beforeSlash (arguments : Text) : Text := arguments.takeWhile (· ≠ '/')

/-- The channels that are found in front of the first slash. -/
def channelParts (arguments : Text) : List Text :=
  if ',' ∈ beforeSlash arguments then
    ((Text.pieces (· = ',') (beforeSlash arguments)).map Text.trim).filter fun part => !part.isEmpty
  else Split.terms (beforeSlash arguments)

/-- What is found behind the first slash. -/
def alphaPart (arguments : Text) : Option Text :=
  (Text.cutAt? (· = '/') arguments).map fun cut => Text.trim cut.2

section

variable {name arguments t u : Text} {c : Char}

theorem channelCount_pos (name : Text) : 0 < channelCount name := by
  unfold channelCount
  split <;> decide

/-! ## In front of the first slash -/

@[simp] theorem beforeSlash_slash (t u : Text) (ht : '/' ∉ t) :
    beforeSlash (t ++ '/' :: u) = t := by
  have hall : ∀ x ∈ t, decide (x ≠ '/') = true := fun x hx => decide_eq_true fun h => ht (h ▸ hx)
  rw [beforeSlash, List.takeWhile_append_of_pos hall, List.takeWhile_cons_of_neg (by simp),
    List.append_nil]

theorem beforeSlash_append (ht : '/' ∉ t) (u : Text) :
    beforeSlash (t ++ u) = t ++ beforeSlash u :=
  List.takeWhile_append_of_pos fun _ hx => decide_eq_true fun h => ht (h ▸ hx)

theorem beforeSlash_cons (hc : c ≠ '/') (t : Text) :
    beforeSlash (c :: t) = c :: beforeSlash t :=
  List.takeWhile_cons_of_pos (decide_eq_true hc)

theorem beforeSlash_eq_self (ht : '/' ∉ t) : beforeSlash t = t := by
  have happend := beforeSlash_append ht []
  rwa [List.append_nil, show beforeSlash [] = [] from rfl, List.append_nil] at happend

theorem splitChannels_eq (arguments : Text) :
    splitChannels arguments = channelParts arguments ++ (alphaPart arguments).toList := by
  have hterms : ∀ front : Text,
      (if front.contains ',' then (Text.pieces (· = ',') front).map Text.trim
        else Split.terms front).filter (fun part => !part.isEmpty) =
      if ',' ∈ front then
        ((Text.pieces (· = ',') front).map Text.trim).filter fun part => !part.isEmpty
      else Split.terms front := by
    intro front
    by_cases hcomma : ',' ∈ front
    · rw [if_pos (List.contains_iff_mem.mpr hcomma), if_pos hcomma]
    · rw [if_neg (by simpa using hcomma), if_neg hcomma, Split.terms, List.filter_filter]
      simp
  rcases Text.exists_first (· = '/') arguments with hnone | ⟨a, c, b, rfl, hc, ha⟩
  · have hslash : '/' ∉ arguments := fun h => by simpa using hnone _ h
    have hcut : Text.cutAt? (· = '/') arguments = none := by
      refine Option.eq_none_iff_forall_ne_some.mpr fun cut hcut => ?_
      obtain ⟨c, hc, -, rfl⟩ := Text.cutAt?_eq_some_iff.mp hcut
      exact hslash (by simp [of_decide_eq_true hc])
    rw [splitChannels, hcut, alphaPart, hcut, channelParts, beforeSlash_eq_self hslash, ← hterms]
    rfl
  · obtain rfl : c = '/' := of_decide_eq_true hc
    have hslash : '/' ∉ a := fun h => by simpa using ha _ h
    have hcut := Text.cutAt?_eq_of_ne (u := b) fun x hx (h : x = '/') => hslash (h ▸ hx)
    rw [splitChannels, hcut, alphaPart, hcut, channelParts, beforeSlash_slash a b hslash, ← hterms]
    rfl

/-! ## Reading a call -/

theorem ofCall_eq (name arguments : Text) :
    Color.ofCall name ('(' :: (arguments ++ [')'])) =
      if (splitChannels arguments).length < channelCount name then
        .error (.malformedFunction (callText name arguments))
      else
        .ok (.function (keptName name) ((splitChannels arguments).take (channelCount name))) := by
  have hinner : (Text.dropLead? ['('] ('(' :: (arguments ++ [')']))).bind
      (Text.dropTail? [')']) = some arguments := by
    have hlead : Text.dropLead? ['('] ('(' :: (arguments ++ [')'])) = some (arguments ++ [')']) :=
      Text.dropLead?_eq_some_iff.mpr rfl
    rw [hlead, Option.bind_some]
    exact Text.dropTail?_eq_some_iff.mpr rfl
  rw [Color.ofCall, hinner]
  rfl

/-- The name of a color function in any case begins with a letter and is made of letters. -/
theorem letters_of_colorFunction (h : Text.toLower name ∈ colorFunctions) :
    name ≠ [] ∧ ∀ c ∈ name, c.isAlphanum = true := by
  obtain ⟨hne, hlower⟩ := IsLowerWord.colorFunctions _ h
  refine ⟨fun hnil => hne (by rw [hnil]; rfl), fun c hc => isAlphanum_of_toLower ?_⟩
  exact List.all_eq_true.mp hlower _ (List.mem_map_of_mem hc)

theorem trim_callText (h : Text.toLower name ∈ colorFunctions) (arguments : Text) :
    Text.trim (callText name arguments) = callText name arguments := by
  obtain ⟨hne, hletters⟩ := letters_of_colorFunction h
  obtain ⟨c, rest, rfl⟩ := List.exists_cons_of_ne_nil hne
  have hnamed : Bracketed.isNamed c = true := by
    rw [Bracketed.isNamed, hletters c List.mem_cons_self]
    rfl
  have hblank : Text.isBlank c = false := (Bracketed.isPlain_of_isNamed hnamed).2.2.2
  have htrim := Text.trim_enclosed hblank (d := ')') (by decide) (rest ++ '(' :: arguments)
  have hcall : callText (c :: rest) arguments = c :: (rest ++ '(' :: arguments ++ [')']) := by
    simp [callText]
  rw [hcall, htrim]

/-- A call of a color function is a color exactly if there are channels enough. -/
theorem read_callText (h : Text.toLower name ∈ colorFunctions) (arguments : Text) :
    Color.read (callText name arguments) =
      if (splitChannels arguments).length < channelCount (Text.toLower name) then
        .error (.malformedFunction (callText (Text.toLower name) arguments))
      else .ok (.function (keptName (Text.toLower name))
        ((splitChannels arguments).take (channelCount (Text.toLower name)))) := by
  obtain ⟨hne, hletters⟩ := letters_of_colorFunction h
  have hlower : Text.toLower (callText name arguments) =
      Text.toLower name ++ '(' :: Text.toLower (arguments ++ [')']) := by
    simp only [Text.toLower, callText, List.map_append, List.map_cons]
    rfl
  have hparen : '(' ∈ Text.toLower (callText name arguments) := by simp [hlower]
  have hcut : Text.cutAt? (· = '(') (Text.toLower (callText name arguments)) =
      some (Text.toLower name, Text.toLower (arguments ++ [')'])) := by
    rw [hlower]
    refine Text.cutAt?_eq_of_ne fun x hx hparen => ?_
    exact (IsLowerWord.colorFunctions _ h).not_mem (c := '(') (by decide) (hparen ▸ hx)
  have hdrop : (callText name arguments).drop (Text.toLower name).length =
      '(' :: (arguments ++ [')']) := by
    rw [Text.toLower, List.length_map, callText, List.drop_left]
  rw [Color.read, trim_callText h, hcut]
  dsimp only
  rw [if_neg (by simp [callText]), if_neg (fun hword => ?_), if_neg (fun hword => ?_)]
  · split
    · rename_i digits hhash
      obtain ⟨c, rest, rfl⟩ := List.exists_cons_of_ne_nil hne
      obtain ⟨rfl, -⟩ := List.cons.inj hhash
      exact absurd (hletters '#' List.mem_cons_self) (by decide)
    · rw [if_pos h, hdrop, ofCall_eq]
  · rw [hword] at hparen
    exact absurd hparen (by decide)
  · rw [hword] at hparen
    exact absurd hparen (by decide)

/-! ## Writing a color with an opacity -/

/-- The arguments of a call with these channels and an opacity. -/
def callArguments (channels : List Text) (opacity : Text) : Text :=
  Text.joinWith [' '] channels ++ " / ".toList ++ opacity

@[simp] theorem withAlpha?_function (name : Text) (channels : List Text) (opacity : Text) :
    (Color.function name channels).withAlpha? opacity =
      some (callText name (callArguments channels opacity)) := by
  simp [Color.withAlpha?, callText, callArguments]

/-- Without the placeholder, the color that is read gets the opacity. -/
theorem withOpacity?_of_read {value : Text} {color : Color}
    (hvalue : Text.includes value alphaPlaceholder = false) (hread : Color.read value = .ok color)
    (opacity : Text) : withOpacity? value opacity = color.withAlpha? opacity := by
  rw [withOpacity?, if_neg (by rw [hvalue]; exact Bool.false_ne_true), hread]

end

end Value
end UtilityCss
