import UtilityCss.Proofs.Value.ColorCall

/-!
# Opacities one after the other

A color that has been written with an opacity is a call, whatever it was before.  Read again, the
call has the channels it was written with, and what stood behind the slash is dropped.  So another
opacity takes the place of the first.

This needs channels that are found again between blanks.  Numbers are; the channels of a call that
the author wrote are unless they are empty, leave a quote or a backslash open, or hold one of the
characters that separate.
-/

namespace UtilityCss

namespace Text

/-- The pieces of a text stand in it. -/
theorem infix_of_mem_pieces {p : Char → Bool} {t w : Text} (h : w ∈ pieces p t) : w <:+: t := by
  induction hlength : t.length using Nat.strongRecOn generalizing t with
  | _ n ih =>
    rcases exists_first p t with hnone | ⟨a, c, b, rfl, hc, ha⟩
    · rw [pieces_eq_singleton hnone, List.mem_singleton] at h
      exact h ▸ List.infix_rfl
    · rw [pieces_append hc, pieces_eq_singleton ha, List.singleton_append] at h
      rcases List.mem_cons.mp h with rfl | h
      · exact (List.prefix_append w _).isInfix
      · have hb : b.length < n := by
          rw [← hlength, List.length_append, List.length_cons]
          omega
        have hsuffix : b <:+ a ++ c :: b := ⟨a ++ [c], by simp⟩
        exact (ih b.length hb h rfl).trans hsuffix.isInfix

/-- What occurs in a part of a text occurs in the text. -/
theorem includes_of_infix {part t u : Text} (h : t <:+: u) (ht : includes t part = true) :
    includes u part = true := by
  obtain ⟨a, b, rfl⟩ := h
  obtain ⟨x, y, rfl⟩ := includes_iff.mp ht
  exact includes_iff.mpr ⟨a ++ x, y ++ b, by simp⟩

theorem mem_joinWith {sep : Text} {c : Char} : ∀ {ts : List Text}, c ∈ joinWith sep ts →
    c ∈ sep ∨ ∃ t ∈ ts, c ∈ t
  | [t], h => .inr ⟨t, List.mem_singleton_self t, h⟩
  | t :: u :: rest, h => by
    rcases List.mem_append.mp h with h | h
    · rcases List.mem_append.mp h with h | h
      · exact .inr ⟨t, List.mem_cons_self, h⟩
      · exact .inl h
    · exact (mem_joinWith h).imp id fun ⟨v, hv, hc⟩ => ⟨v, List.mem_cons_of_mem _ hv, hc⟩

/-- What has no blank in it and occurs in texts with blanks between them occurs in one of them. -/
theorem includes_of_joinWith {part : Text} (hpart : part ≠ []) (hblank : ' ' ∉ part) :
    ∀ {ts : List Text}, includes (joinWith [' '] ts) part = true → ∃ t ∈ ts, includes t part = true
  | [], h => by
    obtain ⟨c, rest, rfl⟩ := List.exists_cons_of_ne_nil hpart
    exact Bool.noConfusion h
  | [t], h => ⟨t, List.mem_singleton_self t, h⟩
  | t :: u :: rest, h => by
    have hsplit : joinWith [' '] (t :: u :: rest) = t ++ ' ' :: joinWith [' '] (u :: rest) := by
      simp [joinWith]
    rw [hsplit] at h
    rcases includes_or_of_append hblank h with h | h
    · exact ⟨t, List.mem_cons_self, h⟩
    · obtain ⟨v, hv, hincludes⟩ := includes_of_joinWith hpart hblank h
      exact ⟨v, List.mem_cons_of_mem _ hv, hincludes⟩

end Text

namespace Decimal

open Value (isDimensionChar startsDimension)

theorem isDimensionChar_of_starts {c : Char} (h : startsDimension c = true) :
    isDimensionChar c = true := by
  rw [isDimensionChar, h]
  rfl

theorem isDimensionChar_of_isAlphanum {c : Char} (h : c.isAlphanum = true) :
    isDimensionChar c = true := by
  rcases Bool.or_eq_true_iff.mp h with halpha | hdigit
  · rw [isDimensionChar, halpha, Bool.or_true]
    rfl
  · exact isDimensionChar_of_starts (by rw [startsDimension, hdigit]; rfl)

theorem isDimensionChar_of_mem_spanDigits {t : Text} : ∀ c ∈ (spanDigits t).1,
    isDimensionChar c = true := fun c hc =>
  isDimensionChar_of_starts ((Value.spanDigits_spec t).2 c hc)

/-- What an exponent takes is made of characters of dimensions. -/
theorem exponent?_spec {t : Text} {n : Int} (h : exponent? t = some (n, [])) :
    ∀ c ∈ t, isDimensionChar c = true := by
  unfold exponent? at h
  split at h
  · exact fun c hc => absurd hc List.not_mem_nil
  · rename_i e u
    split at h
    · rename_i he
      have hletter : isDimensionChar e = true := by
        simp only [Bool.or_eq_true, decide_eq_true_eq] at he
        rcases he with rfl | rfl <;> decide
      -- behind the sign, if there is one, nothing is left but digits
      have hdigits : ∀ {v : Text} {negative : Bool}, (if (spanDigits v).1.isEmpty then none
          else some (if negative then -(Text.toNat (spanDigits v).1 : Int)
            else Text.toNat (spanDigits v).1, (spanDigits v).2)) = some (n, []) →
          ∀ c ∈ v, isDimensionChar c = true := by
        intro v negative hv c hc
        split at hv
        · cases hv
        · rw [(Value.spanDigits_spec v).1, (Prod.mk.inj (Option.some.inj hv)).2,
            List.append_nil] at hc
          exact isDimensionChar_of_mem_spanDigits c hc
      refine List.forall_mem_cons.mpr ⟨hletter, ?_⟩
      dsimp only at h
      split at h
      · exact List.forall_mem_cons.mpr ⟨by decide, hdigits h⟩
      · exact List.forall_mem_cons.mpr ⟨by decide, hdigits h⟩
      · exact hdigits h
    · exact absurd (Prod.mk.inj (Option.some.inj h)).2 (by simp)

theorem magnitude?_spec {t : Text} (h : (magnitude? t).isSome = true) :
    ∀ c ∈ t, isDimensionChar c = true := by
  have hword : ∀ {word : Text}, word.all Char.isLower = true → Text.toLower t = word →
      ∀ c ∈ t, isDimensionChar c = true := by
    rintro _ hlower rfl c hc
    exact isDimensionChar_of_isAlphanum (Value.isAlphanum_of_toLower
      (List.all_eq_true.mp hlower _ (List.mem_map_of_mem hc)))
  rw [magnitude?] at h
  split at h
  next hinf =>
    rcases Bool.or_eq_true_iff.mp hinf with hinf | hinf
    · exact hword (by decide) (of_decide_eq_true hinf)
    · exact hword (by decide) (of_decide_eq_true hinf)
  next =>
    split at h
    next hnan => exact hword (by decide) hnan
    next =>
      obtain ⟨hwhole, hdigits⟩ := Value.spanDigits_spec t
      have hfront := fun c hc => isDimensionChar_of_starts (hdigits c hc)
      rw [hwhole]
      refine fun c hc => (List.mem_append.mp hc).elim (hfront c) fun hc => ?_
      -- what follows the digits is a point with places, and an exponent
      dsimp only at h
      split at h
      next u hu =>
        split at h
        · cases h
        split at h
        next hsome =>
          rw [hu] at hc
          rcases List.mem_cons.mp hc with rfl | hc
          · decide
          · rw [(Value.spanDigits_spec u).1] at hc
            exact (List.mem_append.mp hc).elim (isDimensionChar_of_mem_spanDigits c)
              (exponent?_spec hsome c)
        next => cases h
      next =>
        split at h
        · cases h
        split at h
        next hsome => exact exponent?_spec hsome c hc
        next => cases h

/-- A number is made of characters of dimensions. -/
theorem read?_spec {t : Text} (h : (read? t).isSome = true) :
    ∀ c ∈ t, isDimensionChar c = true := by
  unfold read? at h
  split at h
  · rw [Option.isSome_map] at h
    exact List.forall_mem_cons.mpr ⟨by decide, magnitude?_spec h⟩
  · exact List.forall_mem_cons.mpr ⟨by decide, magnitude?_spec h⟩
  · exact magnitude?_spec h

end Decimal

namespace Value

open Split (State Whole)

/-! ## Channels that are found again -/

/-- A channel that is found again when it is written between blanks. -/
structure Separable (channel : Text) : Prop where
  ne_nil : channel ≠ []
  ends : State.top.after channel = .top
  unseparated : ∀ c ∈ channel, Text.isBlank c = false ∧ c ≠ ',' ∧ c ≠ '/'

instance (channel : Text) : Decidable (Separable channel) :=
  decidable_of_iff (channel ≠ [] ∧ State.top.after channel = .top ∧
      ∀ c ∈ channel, Text.isBlank c = false ∧ c ≠ ',' ∧ c ≠ '/')
    ⟨fun h => ⟨h.1, h.2.1, h.2.2⟩, fun h => ⟨h.ne_nil, h.ends, h.unseparated⟩⟩

theorem separable_of_dimensionChars {t : Text} (hne : t ≠ [])
    (h : ∀ c ∈ t, isDimensionChar c = true) : Separable t :=
  ⟨hne, State.after_plain fun c hc => (plain_of_isDimensionChar (h c hc)).1,
    fun c hc => (plain_of_isDimensionChar (h c hc)).2⟩

/-- Numbers are found again. -/
theorem separable_of_isChannel {t : Text} (h : isChannel t = true) : Separable t := by
  obtain ⟨hdigits, hnumber⟩ := Bool.and_eq_true_iff.mp h
  have hchars := Decimal.read?_spec hnumber
  have hsplit : t = Text.trimEndBy (· = '%') t ++ (t.reverse.takeWhile (· = '%')).reverse := by
    rw [Text.trimEndBy, ← List.reverse_append, List.takeWhile_append_dropWhile,
      List.reverse_reverse]
  refine separable_of_dimensionChars ?_ fun c hc => ?_
  · rintro rfl
    exact Bool.noConfusion hdigits
  · rw [hsplit] at hc
    rcases List.mem_append.mp hc with hc | hc
    · exact hchars c hc
    · have hmem : c ∈ t.reverse.takeWhile (· = '%') := List.mem_reverse.mp hc
      have hpercent := List.mem_takeWhile_imp hmem
      obtain rfl : c = '%' := of_decide_eq_true hpercent
      decide

theorem separable_ofNat (n : Nat) : Separable (Text.ofNat n) := by
  refine separable_of_dimensionChars Nat.toDigits_ne_nil fun c hc => ?_
  have hdigit : c.isDigit = true := Nat.isDigit_of_mem_toDigits (by decide) (by decide) hc
  exact Decimal.isDimensionChar_of_starts (by rw [startsDimension, hdigit]; rfl)

/-- The blank behind a channel ends its term. -/
theorem Separable.terms_append {channel : Text} (h : Separable channel) (t : Text) :
    Split.terms (channel ++ ' ' :: t) = channel :: Split.terms t := by
  have hparts : Split.atTop Text.isBlank channel = [channel] :=
    Split.atTop_eq_singleton_iff.mpr (Split.whole_of_forall fun c hc => (h.unseparated c hc).1)
  have hne : (!channel.isEmpty) = true := by simpa using h.ne_nil
  rw [Split.terms, Split.atTop_append (by decide) (by decide) h.ends, hparts, List.singleton_append]
  exact List.filter_cons_of_pos hne

theorem terms_joinWith : ∀ {channels : List Text}, (∀ channel ∈ channels, Separable channel) →
    Split.terms (Text.joinWith [' '] channels ++ [' ']) = channels
  | [], _ => by decide
  | [channel], h => by
    rw [show Text.joinWith [' '] [channel] = channel from rfl,
      (h channel List.mem_cons_self).terms_append]
    rfl
  | channel :: next :: rest, h => by
    have hsplit : Text.joinWith [' '] (channel :: next :: rest) ++ [' '] =
        channel ++ ' ' :: (Text.joinWith [' '] (next :: rest) ++ [' ']) := by
      simp [Text.joinWith]
    obtain ⟨hchannel, hrest⟩ := List.forall_mem_cons.mp h
    rw [hsplit, hchannel.terms_append, terms_joinWith hrest]

/-- The channels of a call that has been written are found in front of the slash. -/
theorem channelParts_callArguments {channels : List Text}
    (h : ∀ channel ∈ channels, Separable channel) (opacity : Text) :
    channelParts (callArguments channels opacity) = channels := by
  have hnone : ∀ x, Text.isBlank x = false → (∀ channel ∈ channels, x ∉ channel) →
      x ∉ Text.joinWith [' '] channels ++ [' '] := by
    intro x hx hchannels hmem
    have hne : x ∉ [' '] := fun hmem => by
      rw [List.mem_singleton.mp hmem] at hx
      exact absurd hx (by decide)
    rcases List.mem_append.mp hmem with hmem | hmem
    · rcases Text.mem_joinWith hmem with hmem | ⟨channel, hchannel, hmem⟩
      · exact hne hmem
      · exact hchannels channel hchannel hmem
    · exact hne hmem
  have hslash := hnone '/' (by decide) fun channel hchannel hmem =>
    ((h channel hchannel).unseparated '/' hmem).2.2 rfl
  have hcomma := hnone ',' (by decide) fun channel hchannel hmem =>
    ((h channel hchannel).unseparated ',' hmem).2.1 rfl
  have harguments : callArguments channels opacity =
      (Text.joinWith [' '] channels ++ [' ']) ++ '/' :: ' ' :: opacity := by
    simp [callArguments]
  rw [channelParts, harguments, beforeSlash_slash _ _ hslash, if_neg hcomma, terms_joinWith h]

/-! ## Writing a color and reading it again -/

/-- The name of a color function, as colors keep it. -/
def IsKeptName (name : Text) : Prop :=
  name ∈ colorFunctions ∧ Text.toLower name = name ∧ keptName name = name

theorem isKeptName_keptName : ∀ name ∈ colorFunctions,
    IsKeptName (keptName name) ∧ channelCount (keptName name) = channelCount name := by
  unfold IsKeptName
  decide

theorem isKeptName_rgb : IsKeptName "rgb" := (isKeptName_keptName "rgb" (by decide)).1

/-- A color that has been written with an opacity is read again. -/
theorem read_callArguments {name : Text} {channels : List Text} (hname : IsKeptName name)
    (hcount : channels.length = channelCount name)
    (hchannels : ∀ channel ∈ channels, Separable channel) (opacity : Text) :
    Color.read (callText name (callArguments channels opacity)) =
      .ok (.function name channels) := by
  obtain ⟨hfunction, hlower, hkept⟩ := hname
  rw [read_callText (by rwa [hlower]), hlower, hkept, splitChannels_eq,
    channelParts_callArguments hchannels, if_neg, List.take_append_of_le_length (by omega),
    ← hcount, List.take_length]
  rw [List.length_append]
  omega

/-- No placeholder comes into a color that is written without one. -/
theorem includes_callText {name : Text} {channels : List Text} {opacity : Text}
    (hname : IsKeptName name)
    (hchannels : ∀ channel ∈ channels, Text.includes channel alphaPlaceholder = false)
    (hopacity : Text.includes opacity alphaPlaceholder = false) :
    Text.includes (callText name (callArguments channels opacity)) alphaPlaceholder = false := by
  have hsplit : callText name (callArguments channels opacity) =
      name ++ '(' :: (Text.joinWith [' '] channels ++
        ' ' :: ([] ++ '/' :: ([] ++ ' ' :: (opacity ++ ')' :: [])))) := by
    simp [callText, callArguments]
  refine Bool.eq_false_iff.mpr fun h => ?_
  rw [hsplit] at h
  rcases Text.includes_or_of_append (by decide) h with h | h
  · obtain ⟨a, b, hab⟩ := Text.includes_iff.mp h
    refine (IsLowerWord.colorFunctions name hname.1).not_mem (c := '<') (by decide) ?_
    rw [hab]
    exact List.mem_append_left _ (List.mem_append_right _ (by decide))
  rcases Text.includes_or_of_append (by decide) h with h | h
  · obtain ⟨channel, hchannel, hincludes⟩ := Text.includes_of_joinWith (by decide) (by decide) h
    exact Bool.false_ne_true ((hchannels channel hchannel).symm.trans hincludes)
  rcases Text.includes_or_of_append (by decide) h with h | h
  · exact absurd h (by decide)
  rcases Text.includes_or_of_append (by decide) h with h | h
  · exact absurd h (by decide)
  rcases Text.includes_or_of_append (by decide) h with h | h
  · exact Bool.false_ne_true (hopacity.symm.trans h)
  · exact absurd h (by decide)

/-! ## The channels of a color that is read -/

theorem infix_of_mem_splitChannels {arguments channel : Text}
    (h : channel ∈ splitChannels arguments) : channel <:+: arguments := by
  rw [splitChannels_eq] at h
  rcases List.mem_append.mp h with h | h
  · have hbefore : beforeSlash arguments <:+: arguments := (List.takeWhile_prefix _).isInfix
    unfold channelParts at h
    split at h
    · obtain ⟨piece, hpiece, rfl⟩ := List.mem_map.mp (List.mem_filter.mp h).1
      exact (Text.trim_infix piece).trans ((Text.infix_of_mem_pieces hpiece).trans hbefore)
    · exact (Split.infix_of_mem_atTop (Split.mem_terms_iff.mp h).1).trans hbefore
  · obtain ⟨⟨a, b⟩, hcut, rfl⟩ := Option.map_eq_some_iff.mp (Option.mem_toList.mp h)
    obtain ⟨c, -, -, rfl⟩ := Text.cutAt?_eq_some_iff.mp hcut
    have hsuffix : b <:+ a ++ c :: b := ⟨a ++ [c], by simp⟩
    exact (Text.trim_infix b).trans hsuffix.isInfix

/-- What a call makes, when it is a color. -/
theorem function_of_ofCall {own arguments name : Text} {channels : List Text}
    (h : Color.ofCall own arguments = .ok (.function name channels)) :
    name = keptName own ∧ channels.length = channelCount own ∧
      ∀ channel ∈ channels, channel <:+: arguments := by
  cases hinner : (Text.dropLead? ['('] arguments).bind (Text.dropTail? [')']) with
  | none =>
    rw [Color.ofCall, hinner] at h
    cases h
  | some inner =>
    obtain ⟨u, hu, htail⟩ := Option.bind_eq_some_iff.mp hinner
    obtain rfl := Text.dropLead?_eq_some_iff.mp hu
    obtain rfl := Text.dropTail?_eq_some_iff.mp htail
    rw [show ['('] ++ (inner ++ [')']) = '(' :: (inner ++ [')']) from rfl, ofCall_eq] at h
    split at h
    · cases h
    · rename_i hcount
      injection h with h
      obtain ⟨rfl, rfl⟩ := Color.function.inj h
      refine ⟨rfl, by rw [List.length_take]; omega, fun channel hchannel => ?_⟩
      have hwithin : inner <:+: '(' :: (inner ++ [')']) := ⟨['('], [')'], rfl⟩
      exact (infix_of_mem_splitChannels (List.mem_of_mem_take hchannel)).trans hwithin

theorem ofHex_ne_function (digits name : Text) (channels : List Text) :
    Color.ofHex digits ≠ .ok (.function name channels) := by
  intro h
  unfold Color.ofHex at h
  split at h <;> cases h

/-- The channels of a color that is read stand in the text, and there are as many as its function
takes. -/
theorem function_of_read {value name : Text} {channels : List Text}
    (h : Color.read value = .ok (.function name channels)) :
    IsKeptName name ∧ channels.length = channelCount name ∧
      ∀ channel ∈ channels, channel <:+: value := by
  have htrim := Text.trim_infix value
  unfold Color.read at h
  dsimp only at h
  split at h
  · cases h
  split at h
  · cases h
  split at h
  · cases h
  split at h
  · exact absurd h (ofHex_ne_function _ _ _)
  split at h
  · split at h
    · rename_i own _ _ hown
      obtain ⟨rfl, hlength, hwithin⟩ := function_of_ofCall h
      obtain ⟨hkept, hcount⟩ := isKeptName_keptName own hown
      refine ⟨hkept, hlength.trans hcount.symm, fun channel hchannel => ?_⟩
      exact (hwithin channel hchannel).trans ((List.drop_suffix _ _).isInfix.trans htrim)
    · cases h
  · split at h <;> cases h

/-! ## One opacity after the other -/

/-- With every opacity the value is written as the same call, whose channels are found again. -/
structure WrittenAs (value name : Text) (channels : List Text) : Prop where
  written : ∀ opacity,
    withOpacity? value opacity = some (callText name (callArguments channels opacity))
  kept : IsKeptName name
  count : channels.length = channelCount name
  separable : ∀ channel ∈ channels, Separable channel
  unmarked : ∀ channel ∈ channels, Text.includes channel alphaPlaceholder = false

namespace WrittenAs

variable {value name opacity : Text} {channels : List Text}

/-- What has been written takes another opacity in the place of the first. -/
theorem again (h : WrittenAs value name channels)
    (hopacity : Text.includes opacity alphaPlaceholder = false) :
    isColor (callText name (callArguments channels opacity)) = true ∧
      ∀ other, withOpacity? (callText name (callArguments channels opacity)) other =
        withOpacity? value other := by
  have hread := read_callArguments h.kept h.count h.separable opacity
  refine ⟨by rw [isColor, hread], fun other => ?_⟩
  rw [withOpacity?_of_read (includes_callText h.kept h.unmarked hopacity) hread,
    withAlpha?_function, h.written]

/-- Three numbers are written as channels of `rgb`. -/
theorem of_numbers (red green blue : Nat) (h : ∀ opacity, withOpacity? value opacity =
      (Color.rgb red green blue none).withAlpha? opacity) :
    WrittenAs value "rgb" [Text.ofNat red, Text.ofNat green, Text.ofNat blue] := by
  have hunmarked : ∀ n, Text.includes (Text.ofNat n) alphaPlaceholder = false := by
    refine fun n => Bool.eq_false_iff.mpr fun hincludes => ?_
    obtain ⟨a, b, hab⟩ := Text.includes_iff.mp hincludes
    have hmem : '<' ∈ Text.ofNat n := by
      rw [hab]
      exact List.mem_append_left _ (List.mem_append_right _ (by decide))
    exact absurd (Nat.isDigit_of_mem_toDigits (by decide) (by decide) hmem) (by decide)
  refine ⟨fun opacity => ?_, isKeptName_rgb, rfl, ?_, ?_⟩
  · rw [h]
    simp [Color.withAlpha?, callText, callArguments]
  · simp only [List.forall_mem_cons]
    exact ⟨separable_ofNat red, separable_ofNat green, separable_ofNat blue, by simp⟩
  · simp only [List.forall_mem_cons]
    exact ⟨hunmarked red, hunmarked green, hunmarked blue, by simp⟩

/-- What stands in a value without a placeholder has none. -/
theorem unmarked_of_infix (hvalue : Text.includes value alphaPlaceholder = false)
    (hchannels : ∀ channel ∈ channels, channel <:+: value) :
    ∀ channel ∈ channels, Text.includes channel alphaPlaceholder = false :=
  fun channel hchannel => Bool.eq_false_iff.mpr fun hincludes => Bool.false_ne_true
    (hvalue.symm.trans (Text.includes_of_infix (hchannels channel hchannel) hincludes))

end WrittenAs

/-- A color that can take an opacity is written as a call of its channels, whatever the opacity. -/
theorem exists_writtenAs {value opacity written : Text}
    (hvalue : Text.includes value alphaPlaceholder = false)
    (hchannels : ∀ name channels, Color.read value = .ok (.function name channels) →
      ∀ channel ∈ channels, Separable channel)
    (h : withOpacity? value opacity = some written) :
    ∃ name channels, WrittenAs value name channels := by
  cases hread : Color.read value with
  | ok color =>
    have hopacity : ∀ other, withOpacity? value other = color.withAlpha? other :=
      withOpacity?_of_read hvalue hread
    cases color with
    | rgb red green blue alpha => exact ⟨_, _, .of_numbers red green blue hopacity⟩
    | function name channels =>
      obtain ⟨hname, hcount, hinside⟩ := function_of_read hread
      refine ⟨name, channels, fun other => ?_, hname, hcount, hchannels name channels hread,
        WrittenAs.unmarked_of_infix hvalue hinside⟩
      rw [hopacity, withAlpha?_function]
    | transparent => exact ⟨_, _, .of_numbers 0 0 0 hopacity⟩
    | current =>
      rw [hopacity] at h
      cases h
  | error reason =>
    have hlist : ∀ other, withOpacity? value other =
        if (splitChannels value).length = 3 && (splitChannels value).all isChannel then
          (Color.function "rgb" (splitChannels value)).withAlpha? other else none := fun other => by
      rw [withOpacity?, if_neg (by rw [hvalue]; exact Bool.false_ne_true), hread]
    rw [hlist] at h
    split at h
    · rename_i hthree
      obtain ⟨hcount, hall⟩ := Bool.and_eq_true_iff.mp hthree
      refine ⟨"rgb", splitChannels value, fun other => ?_, isKeptName_rgb,
        of_decide_eq_true hcount,
        fun channel hchannel => separable_of_isChannel (List.all_eq_true.mp hall channel hchannel),
        WrittenAs.unmarked_of_infix hvalue fun _ => infix_of_mem_splitChannels⟩
      rw [hlist, if_pos hthree, withAlpha?_function]
    · cases h

/-- The last opacity counts.  What has been written with an opacity is a color, and written with
another one it is what the value itself would have been.  What takes no opacity takes none at
all. -/
theorem withOpacity?_last {value opacity : Text}
    (hvalue : Text.includes value alphaPlaceholder = false)
    (hopacity : Text.includes opacity alphaPlaceholder = false)
    (hchannels : ∀ name channels, Color.read value = .ok (.function name channels) →
      ∀ channel ∈ channels, Separable channel) :
    (∀ written, withOpacity? value opacity = some written → isColor written = true ∧
      ∀ other, withOpacity? written other = withOpacity? value other) ∧
    (withOpacity? value opacity = none → ∀ other, withOpacity? value other = none) := by
  constructor
  · intro written hwritten
    obtain ⟨name, channels, hcall⟩ := exists_writtenAs hvalue hchannels hwritten
    obtain rfl := Option.some.inj ((hcall.written opacity).symm.trans hwritten)
    exact hcall.again hopacity
  · intro hnone other
    cases hother : withOpacity? value other with
    | none => rfl
    | some written =>
      obtain ⟨name, channels, hcall⟩ := exists_writtenAs hvalue hchannels hother
      rw [hcall.written opacity] at hnone
      cases hnone

/-- A call in capitals whose channels are separated by commas, and two opacities. -/
theorem withOpacity?_last_call :
    let value := "HSLA(210,calc(1%*50),var(--l),0.3)".toList
    Color.read value = .ok (.function "hsl" (Text.listOf ["210", "calc(1%*50)", "var(--l)"])) ∧
      withOpacity? value "var(--a, 1/2)" =
        some "hsl(210 calc(1%*50) var(--l) / var(--a, 1/2))".toList ∧
      isColor "hsl(210 calc(1%*50) var(--l) / var(--a, 1/2))" = true ∧
      withOpacity? "hsl(210 calc(1%*50) var(--l) / var(--a, 1/2))" "0.25" =
        withOpacity? value "0.25" := by
  intro value
  have hread : Color.read value =
      .ok (.function "hsl" (Text.listOf ["210", "calc(1%*50)", "var(--l)"])) := by rfl
  have hwritten : withOpacity? value "var(--a, 1/2)" =
      some "hsl(210 calc(1%*50) var(--l) / var(--a, 1/2))".toList := by decide
  have hvalue : Text.includes value alphaPlaceholder = false := by decide
  have hopacity : Text.includes "var(--a, 1/2)" alphaPlaceholder = false := by decide
  have hlast := (withOpacity?_last hvalue hopacity fun name channels hchannels => by
    rw [hread] at hchannels
    obtain ⟨rfl, rfl⟩ := Color.function.inj (Except.ok.inj hchannels)
    decide).1 _ hwritten
  exact ⟨hread, hwritten, hlast.1, hlast.2 "0.25"⟩

/-- A quote that a channel leaves open takes the blank in front of the slash into the channel. -/
theorem withOpacity?_last_open_quote :
    let value := ['r', 'g', 'b', '(', '1', ' ', '2', ' ', '\x22', ')']
    Color.read value = .ok (.function "rgb" [['1'], ['2'], ['\x22']]) ∧
      ∃ written, withOpacity? value "0.5" = some written ∧
        withOpacity? written "0.25" ≠ withOpacity? value "0.25" := by
  refine ⟨by rfl, _, rfl, by decide⟩

end Value
end UtilityCss
