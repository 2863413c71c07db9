import UtilityCss.Proofs.Bytewise.Text
import UtilityCss.Bracketed
import UtilityCss.Evaluation.Wrapper
import UtilityCss.Value.Composite

/-!
# Values by byte offsets

A value is split at the top level, read as a call or as a color, and has its underscores replaced.
A text that is handled by byte offsets is cut for all of this: where a character was found that
separates or opens, behind the parenthesis that closes an address, and in a color at every digit
and where the parenthesis was found in its copy in small letters.
-/

namespace UtilityCss
namespace Bytewise

/-! ## Splitting at the top level -/

/-- The parts of a text, of which `start` is where the part that is being read begins and `pos`
how far it has been read. -/
def parts? (source : Text) (p : Char → Bool) :
    Split.State → Nat → Nat → Text → Option (List Text)
  | _, start, _, [] => (source.from? start).map fun last => [last]
  | s, start, pos, c :: t =>
    if s.splitsAt p c then do
      let part ← source.between? start pos
      let more ← parts? source p s (pos + c.utf8Size) (pos + c.utf8Size) t
      return part :: more
    else parts? source p (s.next c) start (pos + c.utf8Size) t

/-- The parts between the separating characters at the top level. -/
def atTop? (p : Char → Bool) (t : Text) : Option (List Text) := parts? t p .top 0 0 t

/-- Where `a` has been split off and `b` has been read, the parts are those of what is ahead, the
first of them with `b` in front. -/
theorem parts?_bytes {source : Text} {p : Char → Bool} :
    ∀ {t : Text} {s : Split.State} {a b : Text}, source = a ++ (b ++ t) →
      parts? source p s (Text.bytes a) (Text.bytes a + Text.bytes b) t =
        some ((Split.parts p s t).modifyHead (b ++ ·))
  | [], s, a, b, hsource => by
    rw [parts?, hsource, Text.from?_append]
    rfl
  | c :: t, s, a, b, hsource => by
    rw [parts?, Split.parts]
    split
    next =>
      have hbehind : source = (a ++ (b ++ [c])) ++ ([] ++ t) := by simp [hsource]
      have hpos : Text.bytes (a ++ (b ++ [c])) = Text.bytes a + Text.bytes b + c.utf8Size := by
        rw [Text.bytes_append, Text.bytes_append, ← Nat.add_assoc]
        rfl
      have hmore := parts?_bytes (p := p) (s := s) hbehind
      rw [hpos, Text.bytes_nil, Nat.add_zero] at hmore
      rw [hmore, hsource, Text.between?_append]
      obtain ⟨part, more, hparts⟩ := List.exists_cons_of_ne_nil (Split.parts_ne_nil p s t)
      rw [hparts, List.modifyHead_cons, List.modifyHead_cons, List.append_nil]
      rfl
    next =>
      have hnext : source = a ++ ((b ++ [c]) ++ t) := by simp [hsource]
      have hmore := parts?_bytes (p := p) (s := s.next c) hnext
      rw [Text.bytes_append, ← Nat.add_assoc] at hmore
      refine hmore.trans ?_
      obtain ⟨part, more, hparts⟩ :=
        List.exists_cons_of_ne_nil (Split.parts_ne_nil p (s.next c) t)
      simp only [hparts, List.modifyHead_cons, List.append_assoc, List.singleton_append]

theorem atTop?_eq (p : Char → Bool) (t : Text) : atTop? p t = some (Split.atTop p t) := by
  have hparts := parts?_bytes (p := p) (s := .top) (a := []) (b := []) (t := t) rfl
  obtain ⟨part, more, hmore⟩ := List.exists_cons_of_ne_nil (Split.parts_ne_nil p .top t)
  refine hparts.trans ?_
  rw [Split.atTop, hmore]
  rfl

/-! ## Underscores -/

/-- The offset behind the call that a text begins with. -/
def callEnd : Nat → Nat → Text → Nat
  | _, pos, [] => pos
  | depth, pos, c :: t =>
    if c = '(' then callEnd (depth + 1) (pos + c.utf8Size) t
    else if c = ')' then if depth ≤ 1 then pos + 1 else callEnd (depth - 1) (pos + c.utf8Size) t
    else callEnd depth (pos + c.utf8Size) t

/-- Replaces underscores by blanks. -/
def spaced? : Nat → Text → Option Text
  | 0, _ => some []
  | _ + 1, [] => some []
  | fuel + 1, c :: t =>
    if Text.startsWith (c :: t) "url(" then do
      let stop := callEnd 0 0 (c :: t)
      let call ← Text.upTo? (c :: t) stop
      let rest ← Text.from? (c :: t) stop
      return call ++ (← spaced? fuel rest)
    else if c = '\x5c' && Text.startsWith t ['_'] then do
      let rest ← Text.from? (c :: t) 2
      return '_' :: (← spaced? fuel rest)
    else do
      let rest ← Text.from? (c :: t) c.utf8Size
      return (if c = '_' then ' ' else c) :: (← spaced? fuel rest)

theorem callEnd_eq (depth pos : Nat) (t : Text) :
    callEnd depth pos t = pos + Text.bytes (t.take (Bracketed.callLength depth t)) := by
  induction t generalizing depth pos with
  | nil => rfl
  | cons c t ih =>
    have hfurther (depth : Nat) : callEnd depth (pos + c.utf8Size) t =
        pos + Text.bytes ((c :: t).take (Bracketed.callLength depth t + 1)) := by
      rw [ih, List.take_succ_cons, Text.bytes_cons, Nat.add_assoc]
    rw [callEnd, Bracketed.callLength]
    split
    · exact hfurther _
    split
    next hclose =>
      split
      · rw [List.take_succ_cons, List.take_zero, hclose]
        rfl
      · exact hfurther _
    · exact hfurther _

/-- What is kept stands in front. -/
theorem spaceAfter_eq (kept : Nat) (t : Text) :
    Bracketed.spaceAfter kept t = t.take kept ++ Bracketed.spaceAfter 0 (t.drop kept) := by
  induction t generalizing kept with
  | nil => cases kept <;> rfl
  | cons c t ih =>
    cases kept with
    | zero => rfl
    | succ kept =>
      rw [Bracketed.spaceAfter, ih, List.take_succ_cons, List.drop_succ_cons]
      rfl

/-- What a text without an underscore escaped at its beginning is written as. -/
theorem spaceAfter_cons {c : Char} {t : Text}
    (h : (c = '\x5c' && Text.startsWith t ['_']) = false) :
    Bracketed.spaceAfter 0 (c :: t) =
      if Text.startsWith (c :: t) "url(" then
        c :: Bracketed.spaceAfter (Bracketed.callLength 0 (c :: t) - 1) t
      else (if c = '_' then ' ' else c) :: Bracketed.spaceAfter 0 t := by
  rw [Bracketed.spaceAfter]
  rintro u rfl rfl
  exact absurd h (by simp [Text.startsWith, Text.dropLead?])

theorem callLength_pos (depth : Nat) (c : Char) (t : Text) :
    0 < Bracketed.callLength depth (c :: t) := by
  rw [Bracketed.callLength]
  split
  · exact Nat.succ_pos _
  split
  · split
    · exact Nat.one_pos
    · exact Nat.succ_pos _
  · exact Nat.succ_pos _

theorem spaced?_eq_spaceAfter : ∀ {fuel : Nat} {t : Text}, t.length ≤ fuel →
    spaced? fuel t = some (Bracketed.spaceAfter 0 t)
  | 0, [], _ => rfl
  | _ + 1, [], _ => rfl
  | fuel + 1, c :: t, hlength => by
    have hle : t.length ≤ fuel := Nat.le_of_succ_le_succ hlength
    rw [spaced?]
    split
    next hurl =>
      obtain ⟨u, hu⟩ := Text.startsWith_iff.mp hurl
      have hc : c = 'u' := (List.cons.inj hu).1
      have hescape : (decide (c = '\x5c') && Text.startsWith t ['_']) = false := by rw [hc]; rfl
      obtain ⟨n, hn⟩ := Nat.exists_eq_succ_of_ne_zero (Nat.ne_of_gt (callLength_pos 0 c t))
      have hdrop : (t.drop n).length ≤ fuel := by rw [List.length_drop]; omega
      have hcut : c :: t = c :: t.take n ++ t.drop n := by
        rw [List.cons_append, List.take_append_drop]
      have hfront : Text.upTo? (c :: t) (Text.bytes (c :: t.take n)) = some (c :: t.take n) := by
        rw [hcut]
        exact Text.upTo?_append ..
      have hrest : Text.from? (c :: t) (Text.bytes (c :: t.take n)) = some (t.drop n) := by
        rw [hcut]
        exact Text.from?_append ..
      rw [spaceAfter_cons hescape, if_pos hurl, callEnd_eq, Nat.zero_add, hn, List.take_succ_cons,
        Nat.succ_sub_one, spaceAfter_eq]
      dsimp only
      rw [hfront, hrest]
      simp only [Option.bind_eq_bind, Option.bind_some]
      rw [spaced?_eq_spaceAfter hdrop]
      rfl
    next hurl =>
      split
      next hescape =>
        rw [Bool.and_eq_true, decide_eq_true_eq] at hescape
        obtain ⟨rfl, hunder⟩ := hescape
        obtain ⟨u, rfl⟩ := Text.startsWith_iff.mp hunder
        have hrest : Text.from? ('\x5c' :: (['_'] ++ u)) 2 = some u :=
          Text.from?_append ['\x5c', '_'] u
        have hu : u.length ≤ fuel := Nat.le_of_succ_le hle
        rw [hrest]
        simp only [Option.bind_eq_bind, Option.bind_some]
        rw [spaced?_eq_spaceAfter hu]
        rfl
      next hescape =>
        have hrest : Text.from? (c :: t) c.utf8Size = some t := Text.from?_append [c] t
        rw [hrest, spaceAfter_cons (Bool.not_eq_true _ ▸ hescape), if_neg hurl]
        simp only [Option.bind_eq_bind, Option.bind_some]
        rw [spaced?_eq_spaceAfter hle]
        rfl

theorem spaced?_eq (t : Text) : spaced? t.length t = some (Bracketed.spaced t) :=
  spaced?_eq_spaceAfter (Nat.le_refl _)

/-! ## Declarations -/

/-- The property and the value of a bracketed declaration. -/
def declaration? (raw : Text) : Option (Option (Text × Text)) := do
  match ← atTop? (· = ':') raw with
  | head :: _ :: _ =>
    let value ← raw.from? (Text.bytes head + 1)
    let property := Text.trim head
    let value := Text.trim value
    return if !value.isEmpty && Bracketed.isPropertyName property then some (property, value)
      else none
  | _ => return none

/-- Behind the first of several parts stands a character that separates. -/
theorem exists_of_parts {p : Char → Bool} : ∀ {t : Text} {s : Split.State} {head next : Text}
    {more : List Text}, Split.parts p s t = head :: next :: more →
      ∃ ch u, p ch = true ∧ t = head ++ ch :: u
  | [], s, head, next, more, h => by simp [Split.parts] at h
  | c :: t, s, head, next, more, h => by
    rw [Split.parts] at h
    split at h
    next hsplits =>
      obtain ⟨rfl, -⟩ := List.cons.inj h
      simp only [Split.State.splitsAt, Bool.and_eq_true] at hsplits
      exact ⟨c, t, hsplits.1.1.1.1.2, rfl⟩
    next =>
      obtain ⟨part, rest, hparts⟩ :=
        List.exists_cons_of_ne_nil (Split.parts_ne_nil p (s.next c) t)
      rw [hparts] at h
      obtain ⟨rfl, rfl⟩ := List.cons.inj h
      obtain ⟨ch, u, hch, rfl⟩ := exists_of_parts hparts
      exact ⟨ch, u, hch, rfl⟩

theorem declaration?_eq (raw : Text) : declaration? raw = some (Bracketed.declaration? raw) := by
  rw [declaration?, atTop?_eq, Bracketed.declaration?, Split.atChar]
  simp only [Option.bind_eq_bind, Option.bind_some]
  cases hparts : Split.atTop (· = ':') raw with
  | nil => rfl
  | cons head rest =>
    cases rest with
    | nil => rfl
    | cons next more =>
      obtain ⟨ch, u, hch, hraw⟩ := exists_of_parts hparts
      obtain rfl : ch = ':' := of_decide_eq_true hch
      have hsplit : raw = (head ++ [':']) ++ u := by simp [hraw]
      have hfrom : raw.from? (Text.bytes head + 1) = some u := by
        rw [hsplit]
        exact Text.bytes_append head [':'] ▸ Text.from?_append (head ++ [':']) u
      have hdrop : raw.drop (head.length + 1) = u := by
        rw [hsplit]
        exact List.drop_left' List.length_append
      dsimp only
      rw [hfrom, hdrop]
      rfl

/-! ## Calls -/

/-- The name of the function when the text reads as a call. -/
def functionName? (t : Text) : Option (Option Text) := do
  match t.offset? (· = '(') with
  | none => return none
  | some stop =>
    let name ← t.upTo? stop
    return if !name.isEmpty && name.all (fun c => c.isAlphanum || c = '-' || c = '_')
        && Text.endsWith t [')'] then some name
      else none

theorem functionName?_eq (t : Text) : functionName? t = some (Value.functionName? t) := by
  rw [functionName?, Value.functionName?, Text.offset?]
  cases hcut : Text.cutAt? (· = '(') t with
  | none => rfl
  | some parts =>
    dsimp only [Option.map_some]
    rw [Text.upTo?_of_cutAt? hcut]
    rfl

/-- Is the text a call of an image function? -/
def isImageLayer? (t : Text) : Option Bool := do
  match t.offset? (· = '(') with
  | none => return false
  | some stop =>
    let name ← t.upTo? stop
    return Text.endsWith t [')'] && name ∈ Value.imageFunctions

theorem isImageLayer?_eq (t : Text) : isImageLayer? t = some (Value.isImageLayer t) := by
  rw [isImageLayer?, Value.isImageLayer, Text.offset?]
  cases hcut : Text.cutAt? (· = '(') t with
  | none => rfl
  | some parts =>
    dsimp only [Option.map_some]
    rw [Text.upTo?_of_cutAt? hcut]
    rfl

/-! ## Colors -/

/-- The arguments of a color function. -/
def splitChannels? (inner : Text) : Option (List Text) := do
  let (channels, alpha) :=
    match Text.cutAt? (· = '/') inner with
    | some (channels, alpha) => (channels, some (Text.trim alpha))
    | none => (inner, none)
  let parts ←
    if channels.contains ',' then some ((Text.pieces (· = ',') channels).map Text.trim)
    else (atTop? Text.isBlank channels).map fun parts => parts.filter fun part => !part.isEmpty
  return parts.filter (fun part => !part.isEmpty) ++ alpha.toList

/-- The color of a function call. -/
def callColor? (name arguments : Text) : Option (Except Value.ColorError Value.Color) :=
  let malformed := Value.ColorError.malformedFunction (name ++ arguments)
  match (Text.dropLead? ['('] arguments).bind (Text.dropTail? [')']) with
  | none => some (.error malformed)
  | some inner => do
    let channels ← splitChannels? inner
    let expected := if name = "color" then 4 else 3
    if channels.length < expected then return .error malformed
    else
      let name : Text := if name = "rgba" then "rgb" else if name = "hsla" then "hsl" else name
      return .ok (.function name (channels.take expected))

/-- The value of a hexadecimal digit. -/
def hexValue (c : Char) : Nat := (Json.hexDigit? c).getD 0

/-- The channel of one digit, which is cut out at an offset. -/
def digit? (hex : Text) (i : Nat) : Option Nat :=
  (hex.between? i (i + 1)).map fun part => part.foldl (fun n c => n * 16 + hexValue c) 0 * 17

/-- The channel of two digits, which are cut out at an offset. -/
def pair? (hex : Text) (i : Nat) : Option Nat :=
  (hex.between? i (i + 2)).map fun part => part.foldl (fun n c => n * 16 + hexValue c) 0

/-- The color of hexadecimal digits. -/
def hexColor? (hex : Text) : Option (Except Value.ColorError Value.Color) :=
  if !hex.all fun c => (Json.hexDigit? c).isSome then some (.error (.invalidHex hex))
  else
    match Text.bytes hex with
    | 3 => do return .ok (.rgb (← digit? hex 0) (← digit? hex 1) (← digit? hex 2) none)
    | 4 => do
      return .ok (.rgb (← digit? hex 0) (← digit? hex 1) (← digit? hex 2) (some (← digit? hex 3)))
    | 6 => do return .ok (.rgb (← pair? hex 0) (← pair? hex 2) (← pair? hex 4) none)
    | 8 => do
      return .ok (.rgb (← pair? hex 0) (← pair? hex 2) (← pair? hex 4) (some (← pair? hex 6)))
    | _ => some (.error (.invalidHex hex))

/-- Reads a color.  The parenthesis of a call is looked for in a copy in small letters, and the
color is cut where it was found there. -/
def color? (text : Text) : Option (Except Value.ColorError Value.Color) :=
  let text := Text.trim text
  let lower := Text.toLower text
  if text = [] then some (.error .empty)
  else if lower = "transparent" then some (.ok .transparent)
  else if lower = "currentcolor" then some (.ok .current)
  else
    match text with
    | '#' :: digits => hexColor? digits
    | _ => do
      match lower.offset? (· = '(') with
      | some opening =>
        let name ← lower.upTo? opening
        if name ∈ Value.colorFunctions then
          callColor? name (← text.from? opening)
        else return .error (.unknown text)
      | none =>
        match Value.namedColors.lookup lower with
        | some (r, g, b) => return .ok (.rgb r g b none)
        | none => return .error (.unknown text)

/-- The color with the given opacity, none when the text is not a color that can take one. -/
def withOpacity? (value opacity : Text) : Option (Option Text) :=
  if Text.includes value Value.alphaPlaceholder then
    some (some (Text.replaceAll Value.alphaPlaceholder opacity value))
  else do
    match ← color? value with
    | .ok color => return color.withAlpha? opacity
    | .error _ =>
      let channels ← splitChannels? value
      return if channels.length = 3 && channels.all Value.isChannel then
          (Value.Color.function "rgb" channels).withAlpha? opacity
        else none

theorem splitChannels?_eq (inner : Text) :
    splitChannels? inner = some (Value.splitChannels inner) := by
  rw [splitChannels?, Value.splitChannels]
  cases Text.cutAt? (· = '/') inner with
  | none =>
    dsimp only
    rw [atTop?_eq]
    split <;> rfl
  | some parts =>
    dsimp only
    rw [atTop?_eq]
    split <;> rfl

theorem callColor?_eq (name arguments : Text) :
    callColor? name arguments = some (Value.Color.ofCall name arguments) := by
  rw [callColor?, Value.Color.ofCall]
  cases (Text.dropLead? ['('] arguments).bind (Text.dropTail? [')']) with
  | none => rfl
  | some inner =>
    dsimp only
    rw [splitChannels?_eq]
    simp only [Option.bind_eq_bind, Option.bind_some]
    split
    · split <;> rfl
    · split <;> rfl

/-- All digits are hexadecimal, or one of them has no value. -/
theorem mapM_hexDigit? : ∀ hex : Text, hex.mapM Json.hexDigit? =
    if hex.all fun c => (Json.hexDigit? c).isSome then
      some (hex.map hexValue)
    else none
  | [] => rfl
  | c :: hex => by
    rw [List.mapM_cons, mapM_hexDigit? hex, List.all_cons, List.map_cons, hexValue]
    cases Json.hexDigit? c with
    | none => rfl
    | some d =>
      rw [Option.isSome_some, Bool.true_and]
      split <;> rfl

theorem isWide_of_hexDigit? {c : Char} (h : (Json.hexDigit? c).isSome = true) :
    Text.isWide c = false := by
  unfold Json.hexDigit? at h
  split at h
  next hdigit => exact Text.isWide_of_isDigit hdigit
  split at h
  next hsmall => exact Text.isWide_eq_false hsmall.2 (by decide)
  split at h
  next hcapital => exact Text.isWide_eq_false hcapital.2 (by decide)
  next => exact absurd h (by decide)

theorem bytes_of_not_wide {t : Text} (h : ∀ c ∈ t, Text.isWide c = false) :
    Text.bytes t = t.length := by
  induction t with
  | nil => rfl
  | cons c t ih =>
    rw [Text.bytes_cons, ih fun x hx => h x (List.mem_cons_of_mem c hx), List.length_cons,
      Text.utf8Size_of_not_wide (h c List.mem_cons_self), Nat.add_comm]

/-- A text of single bytes can be cut anywhere. -/
theorem between?_of_not_wide {t : Text} (h : ∀ c ∈ t, Text.isWide c = false) {i n : Nat}
    (hi : i + n ≤ t.length) : t.between? i (i + n) = some ((t.drop i).take n) := by
  have hsplit : t = t.take i ++ ((t.drop i).take n ++ (t.drop i).drop n) := by
    rw [List.take_append_drop, List.take_append_drop]
  have hfront : Text.bytes (t.take i) = i := by
    rw [bytes_of_not_wide fun c hc => h c (List.mem_of_mem_take hc), List.length_take]
    omega
  have hpart : Text.bytes ((t.drop i).take n) = n := by
    rw [bytes_of_not_wide fun c hc => h c (List.mem_of_mem_drop (List.mem_of_mem_take hc)),
      List.length_take, List.length_drop]
    omega
  have hcut := Text.between?_append (t.take i) ((t.drop i).take n) ((t.drop i).drop n)
  rwa [hfront, hpart, ← hsplit] at hcut

section

variable {hex : Text} (hwide : ∀ c ∈ hex, Text.isWide c = false)
include hwide

theorem digit?_eq {i : Nat} {d : Char} {u : Text} (h : hex.drop i = d :: u) :
    digit? hex i = some (hexValue d * 17) := by
  have hlength := congrArg List.length h
  rw [List.length_drop, List.length_cons] at hlength
  rw [digit?, between?_of_not_wide hwide (by omega), h]
  simp

theorem pair?_eq {i : Nat} {d e : Char} {u : Text} (h : hex.drop i = d :: e :: u) :
    pair? hex i = some (hexValue d * 16 + hexValue e) := by
  have hlength := congrArg List.length h
  rw [List.length_drop, List.length_cons, List.length_cons] at hlength
  rw [pair?, between?_of_not_wide hwide (by omega), h]
  simp

end

theorem hexColor?_eq (hex : Text) : hexColor? hex = some (Value.Color.ofHex hex) := by
  rw [hexColor?, Value.Color.ofHex, mapM_hexDigit?]
  cases hall : hex.all fun c => (Json.hexDigit? c).isSome with
  | false => rfl
  | true =>
    have hwide : ∀ c ∈ hex, Text.isWide c = false := fun c hc =>
      isWide_of_hexDigit? (List.all_eq_true.mp hall c hc)
    rw [Bool.not_true, if_neg Bool.false_ne_true, if_pos rfl, bytes_of_not_wide hwide]
    clear hall
    match hex with
    | [] | [_] | [_, _] | [_, _, _, _, _] | [_, _, _, _, _, _, _] => rfl
    | [r, g, b] =>
      rw [digit?_eq hwide (i := 0) rfl, digit?_eq hwide (i := 1) rfl, digit?_eq hwide (i := 2) rfl]
      rfl
    | [r, g, b, a] =>
      rw [digit?_eq hwide (i := 0) rfl, digit?_eq hwide (i := 1) rfl, digit?_eq hwide (i := 2) rfl,
        digit?_eq hwide (i := 3) rfl]
      rfl
    | [r, r', g, g', b, b'] =>
      rw [pair?_eq hwide (i := 0) rfl, pair?_eq hwide (i := 2) rfl, pair?_eq hwide (i := 4) rfl]
      rfl
    | [r, r', g, g', b, b', a, a'] =>
      rw [pair?_eq hwide (i := 0) rfl, pair?_eq hwide (i := 2) rfl, pair?_eq hwide (i := 4) rfl,
        pair?_eq hwide (i := 6) rfl]
      rfl
    | _ :: _ :: _ :: _ :: _ :: _ :: _ :: _ :: _ :: _ => rfl

theorem utf8Size_toLower (c : Char) : c.toLower.utf8Size = c.utf8Size := by
  by_cases h : c.val ≥ 'A'.val ∧ c.val ≤ 'Z'.val
  · have hval : c.toLower.val = c.val + ('a'.val - 'A'.val) := congrArg Char.val (dif_pos h)
    have hupper : c.val.toNat ≤ 90 := UInt32.le_iff_toNat_le.mp h.2
    have hsmall : c.toLower.val.toNat < 0x80 := by
      rw [hval, UInt32.toNat_add]
      exact Nat.lt_of_le_of_lt (Nat.mod_le ..) (by change _ + 32 < _; omega)
    rw [Text.utf8Size_of_not_wide (decide_eq_false (Nat.not_le_of_lt hsmall)),
      Text.utf8Size_of_not_wide (Text.isWide_eq_false h.2 (by decide))]
  · exact congrArg Char.utf8Size (dif_neg h)

/-- Small letters take as many bytes as capitals. -/
theorem bytes_toLower (t : Text) : Text.bytes (Text.toLower t) = Text.bytes t := by
  induction t with
  | nil => rfl
  | cons c t ih =>
    rw [Text.bytes_cons, ← ih, ← utf8Size_toLower]
    rfl

theorem color?_eq (text : Text) : color? text = some (Value.Color.read text) := by
  rw [color?, Value.Color.read]
  generalize Text.trim text = t
  split
  · rfl
  split
  · rfl
  split
  · rfl
  split
  · exact hexColor?_eq _
  next =>
    rw [Text.offset?]
    cases hcut : Text.cutAt? (· = '(') (Text.toLower t) with
    | none =>
      dsimp only [Option.map_none]
      cases Value.namedColors.lookup (Text.toLower t) <;> simp
    | some parts =>
      obtain ⟨name, rest⟩ := parts
      obtain ⟨ch, -, -, hlower⟩ := Text.cutAt?_eq_some_iff.mp hcut
      -- the name is the beginning of the color in small letters, and as long as it
      obtain ⟨front, arguments, ht, hname, -⟩ := List.map_eq_append_iff.mp hlower
      have hlength : name.length = front.length := by rw [← hname, List.length_map]
      have hbytes : Text.bytes name = Text.bytes front := by
        rw [← hname]
        exact bytes_toLower front
      have hkey : (Text.toLower t).upTo? (Text.bytes name) = some name := Text.upTo?_of_cutAt? hcut
      have harguments : t.from? (Text.bytes name) = some arguments := by
        rw [hbytes, ht, Text.from?_append]
      have hdrop : t.drop name.length = arguments := by
        rw [hlength, ht, List.drop_left]
      dsimp only [Option.map_some]
      rw [hkey, hdrop]
      simp only [Option.bind_eq_bind, Option.bind_some]
      rw [harguments, Option.bind_some, callColor?_eq]
      split <;> rfl

theorem withOpacity?_eq (value opacity : Text) :
    withOpacity? value opacity = some (Value.withOpacity? value opacity) := by
  rw [withOpacity?, Value.withOpacity?]
  split
  · rfl
  · rw [color?_eq]
    simp only [Option.bind_eq_bind, Option.bind_some]
    cases Value.Color.read value with
    | ok color => rfl
    | error e =>
      dsimp only
      rw [splitChannels?_eq]
      rfl

/-! ## Templates -/

/-- The levels of a template, at most so many. -/
def levelsWithin? : Nat → Text → Option (List Text)
  | 0, _ => some []
  | fuel + 1, t =>
    let t := Text.trim t
    match t.offset? (· = '\x7b') with
    | none => some (if t.isEmpty then [] else [t])
    | some opening => do
      let head := Text.trim (← t.upTo? opening)
      let inner ← t.from? (opening + 1)
      let inner ←
        match inner.lastOffset? (· = '\x7d') with
        | some close => inner.upTo? close
        | none => some inner
      let further ← levelsWithin? fuel inner
      return if head.isEmpty then further else head :: further

/-- The levels of a template, the outermost first. -/
def levels? (template : Text) : Option (List Text) := levelsWithin? (template.length + 1) template

theorem levelsWithin?_eq : ∀ (fuel : Nat) (t : Text),
    levelsWithin? fuel t = some (Wrapping.levelsWithin fuel t)
  | 0, _ => rfl
  | fuel + 1, t => by
    rw [levelsWithin?, Wrapping.levelsWithin]
    generalize Text.trim t = t
    rw [Text.offset?]
    cases hcut : Text.cutAt? (· = '\x7b') t with
    | none => rfl
    | some parts =>
      have hbehind : t.from? (Text.bytes parts.1 + 1) = some parts.2 := Text.from?_of_cutAt? hcut
      dsimp only [Option.map_some]
      rw [Text.upTo?_of_cutAt? hcut, hbehind]
      simp only [Option.bind_eq_bind, Option.bind_some]
      rw [Text.lastOffset?]
      have hfurther (inner : Text) := levelsWithin?_eq fuel inner
      cases hlast : Text.cutAtLast? (· = '\x7d') parts.2 with
      | none =>
        dsimp only [Option.map_none]
        rw [hfurther, Option.bind_some]
        split <;> rfl
      | some parts' =>
        dsimp only [Option.map_some]
        rw [Text.upTo?_of_cutAtLast? hlast, Option.bind_some, hfurther, Option.bind_some]
        split <;> rfl

theorem levels?_eq (template : Text) : levels? template = some (Wrapping.levels template) :=
  levelsWithin?_eq _ template

end Bytewise
end UtilityCss
