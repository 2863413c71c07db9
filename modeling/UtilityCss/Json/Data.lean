import UtilityCss.Keyed

/-!
# Structured data

Themes and the values of configuration files are JSON data: the scalar shapes,
lists, and objects whose members are ordered.  A number enters CSS only as a
text, so it is kept as the text it is shown by, and two numbers are the same
exactly when they are shown alike.

## Merging

`Data.merge` lays one value over another.  Objects merge member by member, a list
whose first item is an object grows by the other list, an absent value changes
nothing, and anything else is replaced.
-/

namespace UtilityCss

/-- A value of JSON data. -/
inductive Data where
  | null
  | bool (value : Bool)
  /-- A number, by the text it is shown by. -/
  | number (text : Text)
  | text (value : Text)
  | list (items : List Data)
  | object (members : List (Text × Data))
  deriving Repr, Inhabited

namespace Data

mutual

/-- Equality of data is decidable. -/
def decEq : (a b : Data) → Decidable (a = b)
  | .null, .null => isTrue rfl
  | .bool a, .bool b =>
    if h : a = b then isTrue (by rw [h]) else isFalse (by simpa using h)
  | .number a, .number b =>
    if h : a = b then isTrue (by rw [h]) else isFalse (by simpa using h)
  | .text a, .text b =>
    if h : a = b then isTrue (by rw [h]) else isFalse (by simpa using h)
  | .list a, .list b =>
    match decEqItems a b with
    | isTrue h => isTrue (by rw [h])
    | isFalse h => isFalse (by simpa using h)
  | .object a, .object b =>
    match decEqMembers a b with
    | isTrue h => isTrue (by rw [h])
    | isFalse h => isFalse (by simpa using h)
  | .null, .bool _ | .null, .number _ | .null, .text _ | .null, .list _ | .null, .object _
  | .bool _, .null | .bool _, .number _ | .bool _, .text _ | .bool _, .list _
  | .bool _, .object _ | .number _, .null | .number _, .bool _ | .number _, .text _
  | .number _, .list _ | .number _, .object _ | .text _, .null | .text _, .bool _
  | .text _, .number _ | .text _, .list _ | .text _, .object _ | .list _, .null
  | .list _, .bool _ | .list _, .number _ | .list _, .text _ | .list _, .object _
  | .object _, .null | .object _, .bool _ | .object _, .number _ | .object _, .text _
  | .object _, .list _ => isFalse (by simp)

/-- Equality of lists of data is decidable. -/
def decEqItems : (a b : List Data) → Decidable (a = b)
  | [], [] => isTrue rfl
  | a :: as, b :: bs =>
    match decEq a b, decEqItems as bs with
    | isTrue h, isTrue t => isTrue (by rw [h, t])
    | isFalse h, _ => isFalse (by simp [h])
    | _, isFalse t => isFalse (by simp [t])
  | [], _ :: _ | _ :: _, [] => isFalse (by simp)

/-- Equality of member lists is decidable. -/
def decEqMembers : (a b : List (Text × Data)) → Decidable (a = b)
  | [], [] => isTrue rfl
  | (k, a) :: as, (l, b) :: bs =>
    if e : k = l then
      match decEq a b, decEqMembers as bs with
      | isTrue h, isTrue t => isTrue (by rw [e, h, t])
      | isFalse h, _ => isFalse (by simp [h])
      | _, isFalse t => isFalse (by simp [t])
    else isFalse (by simp [e])
  | [], _ :: _ | _ :: _, [] => isFalse (by simp)

end

instance : DecidableEq Data := decEq

/-- Is the value an object? -/
def isObject : Data → Bool
  | .object _ => true
  | _ => false

/-- The members of an object; other values have none. -/
def members : Data → List (Text × Data)
  | .object members => members
  | _ => []

/-- The member of an object under a key. -/
def member? (key : Text) (d : Data) : Option Data := d.members.lookup key

mutual

/-- Lays a value over `base`; the value laid over comes first, because the
recursion is on it. -/
def overlay : Data → Data → Data
  | .object incoming, .object base => .object (overlayMembers incoming base)
  | .list incoming, .list base =>
    match base with
    | .object _ :: _ => .list (base ++ incoming)
    | _ => .list incoming
  | .null, base => base
  | incoming, _ => incoming

/-- Lays the members of one object over those of another, in their order. -/
def overlayMembers : List (Text × Data) → List (Text × Data) → List (Text × Data)
  | [], base => base
  | (key, value) :: rest, base =>
    overlayMembers rest <|
      match base.lookup key with
      | some previous => Keyed.put key (overlay value previous) base
      | none => base ++ [(key, value)]

end

/-- The deep merge of `incoming` into `base`. -/
def merge (base incoming : Data) : Data := overlay incoming base

@[simp] theorem merge_null (base : Data) : merge base .null = base := by
  cases base <;> rfl

@[simp] theorem merge_object (base incoming : List (Text × Data)) :
    merge (.object base) (.object incoming) = .object (overlayMembers incoming base) := by
  simp [merge, overlay]

end Data
end UtilityCss
