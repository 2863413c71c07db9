import UtilityCss.Json.Data

/-!
# Theme functions

A category of a theme may depend on other parts of the theme.  Such a category is
a query: it either has its answer, or asks for the value at a path and goes on
with what it is told.  A query is plain data about which paths are asked for in
which order, so nothing is known about it but what it answers to given answers,
and evaluating it is a recursion on the query.
-/

namespace UtilityCss

/-- A computation that may ask for values of the theme. -/
inductive Query (α : Type) where
  | answer (a : α)
  /-- Ask for the value at a path and go on with it. -/
  | lookup (path : Text) (next : Option Data → Query α)

namespace Query

variable {α β σ : Type}

/-- Goes on with the answer of a query. -/
def bind : Query α → (α → Query β) → Query β
  | answer a, f => f a
  | lookup path next, f => lookup path fun found => bind (next found) f

instance : Monad Query where
  pure := answer
  bind := bind

@[simp] theorem pure_eq (a : α) : (pure a : Query α) = answer a := rfl

@[simp] theorem bind_answer (a : α) (f : α → Query β) : (answer a >>= f) = f a := rfl

@[simp] theorem bind_lookup (path : Text) (next : Option Data → Query α) (f : α → Query β) :
    (lookup path next >>= f) = lookup path fun found => next found >>= f := rfl

/-- The value at a path, `null` when there is none. -/
def theme (path : Text) : Query Data := lookup path fun found => answer (found.getD .null)

/-- The value at a path, another one when there is none. -/
def themeOr (path : Text) (default : Data) : Query Data :=
  lookup path fun found => answer (found.getD default)

/-- Runs a query on a state that answering a question may change. -/
def run (answerTo : Text → σ → Option Data × σ) : Query α → σ → α × σ
  | answer a, s => (a, s)
  | lookup path next, s =>
    let (found, s) := answerTo path s
    run answerTo (next found) s

/-- The answers of queries, in order. -/
def all : List (Query α) → Query (List α)
  | [] => answer []
  | q :: rest => do
    let a ← q
    let as ← all rest
    return a :: as

end Query

/-- A category of a theme: data, or a function of the merged theme. -/
inductive ThemeValue where
  | data (value : Data)
  | computed (query : Query Data)

namespace ThemeValue

/-- Is the category a function? -/
def isComputed : ThemeValue → Bool
  | data _ => false
  | computed _ => true

/-- The query that a category is; data are their own answer. -/
def query : ThemeValue → Query Data
  | data value => .answer value
  | computed query => query

/-- Pieces of a category merged into one, the later over the earlier.  They make a
function as soon as one of them is one. -/
def merged (pieces : List ThemeValue) : ThemeValue :=
  if pieces.any isComputed then
    .computed do
      let values ← Query.all (pieces.map query)
      return values.foldl Data.merge .null
  else
    .data <| (pieces.map fun piece =>
      match piece with
      | data value => value
      | computed _ => .null).foldl Data.merge .null

end ThemeValue
end UtilityCss
