/-!
# Text

Class lists, selectors and declarations are read character by character, so a
text is the list of its characters.  Positions in a source are counted in the
bytes of its UTF-8 form; `Text.bytes` is that measure, and nothing else in the
library depends on how characters are encoded.

## Where the operations come from

`List` already splits, drops and reverses.  What is added here is what reading
needs on top: removing a known beginning or end, cutting at a separator, and
finding or replacing a part.  Each is a recursion on the text, so it computes by
`rfl` on closed texts.
-/

namespace UtilityCss

/-- A text, as the list of its characters. -/
abbrev Text := List Char

/-- A string literal stands for the text it spells. -/
instance : Coe String Text := ⟨String.toList⟩

/-- Texts that compare equal are the same, so membership among texts is decidable. -/
instance : LawfulBEq Text := inferInstance

namespace Text

/-- The texts that string literals spell. -/
def listOf (strings : List String) : List Text := strings.map String.toList

/-- The number of bytes of the UTF-8 form. -/
def bytes : Text → Nat
  | [] => 0
  | c :: rest => c.utf8Size + bytes rest

@[simp] theorem bytes_nil : bytes [] = 0 := rfl

@[simp] theorem bytes_cons (c : Char) (t : Text) :
    bytes (c :: t) = c.utf8Size + bytes t := rfl

@[simp] theorem bytes_append (t u : Text) : bytes (t ++ u) = bytes t + bytes u := by
  induction t with
  | nil => simp
  | cons c t ih => simp [ih, Nat.add_assoc]

theorem bytes_reverse (t : Text) : bytes t.reverse = bytes t := by
  induction t with
  | nil => rfl
  | cons c t ih => simp [ih, Nat.add_comm]

/-! ## Known beginnings and ends -/

/-- What follows `lead`, when the text begins with it. -/
def dropLead? : Text → Text → Option Text
  | [], t => some t
  | _ :: _, [] => none
  | a :: lead, c :: t => if a = c then dropLead? lead t else none

/-- A text is `lead` followed by what `dropLead?` leaves. -/
theorem dropLead?_eq_some_iff {lead t rest : Text} :
    dropLead? lead t = some rest ↔ t = lead ++ rest := by
  induction lead generalizing t with
  | nil => simp [dropLead?]
  | cons a lead ih =>
    cases t with
    | nil => simp [dropLead?]
    | cons c t =>
      by_cases h : a = c
      · simp [dropLead?, h, ih]
      · simp [dropLead?, h, Ne.symm h]

/-- What precedes `tail`, when the text ends with it. -/
def dropTail? (tail t : Text) : Option Text :=
  (dropLead? tail.reverse t.reverse).map List.reverse

/-- A text is what `dropTail?` leaves, followed by `tail`. -/
theorem dropTail?_eq_some_iff {tail t rest : Text} :
    dropTail? tail t = some rest ↔ t = rest ++ tail := by
  simp only [dropTail?, Option.map_eq_some_iff, dropLead?_eq_some_iff]
  constructor
  · rintro ⟨u, hu, rfl⟩
    simpa using congrArg List.reverse hu
  · rintro rfl
    exact ⟨rest.reverse, by simp⟩

/-- Does the text begin with `lead`? -/
def startsWith (t lead : Text) : Bool := (dropLead? lead t).isSome

/-- Does the text end with `tail`? -/
def endsWith (t tail : Text) : Bool := (dropTail? tail t).isSome

/-- Does the text begin with a character of the class? -/
def startsWithChar (t : Text) (p : Char → Bool) : Bool :=
  match t with
  | [] => false
  | c :: _ => p c

/-- The characters with those of the class dropped from both ends. -/
def trimBy (p : Char → Bool) (t : Text) : Text :=
  ((t.dropWhile p).reverse.dropWhile p).reverse

/-- The characters with those of the class dropped from the end. -/
def trimEndBy (p : Char → Bool) (t : Text) : Text := (t.reverse.dropWhile p).reverse

/-! ## Cutting -/

/-- The text before and after the first character of the class. -/
def cutAt? (p : Char → Bool) : Text → Option (Text × Text)
  | [] => none
  | c :: t => if p c then some ([], t) else (cutAt? p t).map fun (a, b) => (c :: a, b)

/-- The text before and after the last character of the class. -/
def cutAtLast? (p : Char → Bool) (t : Text) : Option (Text × Text) :=
  (cutAt? p t.reverse).map fun (a, b) => (b.reverse, a.reverse)

/-- The text before and after the first occurrence of `part`. -/
def cutAround? (part : Text) : Text → Option (Text × Text)
  | [] => if part = [] then some ([], []) else none
  | c :: t =>
    match dropLead? part (c :: t) with
    | some rest => some ([], rest)
    | none => (cutAround? part t).map fun (a, b) => (c :: a, b)

/-- Does `part` occur in the text? -/
def includes (t part : Text) : Bool := (cutAround? part t).isSome

/-- The pieces between the characters of the class, at least one. -/
def pieces (p : Char → Bool) : Text → List Text
  | [] => [[]]
  | c :: t =>
    if p c then [] :: pieces p t
    else
      match pieces p t with
      | [] => [[c]]
      | piece :: rest => (c :: piece) :: rest

/-- The texts one after the other, with `sep` between neighbours. -/
def joinWith (sep : Text) : List Text → Text
  | [] => []
  | [t] => t
  | t :: rest => t ++ sep ++ joinWith sep rest

/-- Replaces every occurrence of `part` from the left, occurrences not
overlapping; the first argument counts characters of an occurrence still to be
skipped. -/
def replaceFrom (part value : Text) : Nat → Text → Text
  | _, [] => []
  | skip + 1, _ :: t => replaceFrom part value skip t
  | 0, c :: t =>
    if startsWith (c :: t) part then value ++ replaceFrom part value (part.length - 1) t
    else c :: replaceFrom part value 0 t

/-- The text with every occurrence of the non-empty `part` replaced. -/
def replaceAll (part value t : Text) : Text := replaceFrom part value 0 t

/-! ## Letters of the ASCII range -/

/-- The text with ASCII capitals made small. -/
def toLower (t : Text) : Text := t.map Char.toLower

/-- The decimal numeral of a number. -/
def ofNat (n : Nat) : Text := Nat.toDigits 10 n

/-- The decimal numeral of an integer. -/
def ofInt : Int → Text
  | .ofNat n => ofNat n
  | .negSucc n => '-' :: ofNat (n + 1)

/-- The number a run of decimal digits spells; other characters count as their
distance from zero. -/
def toNat (t : Text) : Nat := t.foldl (fun n c => n * 10 + (c.toNat - '0'.toNat)) 0

end Text
end UtilityCss
