import HornOntology.Matching

set_option autoImplicit false

/-! # Answers to queries

The answer to a query is a table: one column for each selected variable, one row for each match of
the body. Equal rows of a distinct query are shown once. -/

namespace HornOntology

/-- The table that answers a query. -/
structure Answer where
  name : String
  columns : List Variable
  rows : List (List EntityId)
deriving DecidableEq

/-- The row that a match gives to a query. -/
def Query.row? {κ : Type} (query : Query κ) (binding : Binding) : Option (List EntityId) :=
  query.projection.mapM binding.get?

/-- The rows of a query, one for each match, in order. -/
def Matcher.rows (m : Matcher) (query : Query EntityId) : List (List EntityId) :=
  (m.solve query.plan .empty).filterMap query.row?

/-- Answer a query. -/
def Matcher.answer (m : Matcher) (query : Query EntityId) : Answer :=
  let rows := m.rows query
  { name := query.name
    columns := query.projection
    rows := if query.distinct then rows.eraseDups else rows }

namespace Answer

variable (a : Answer)

/-- How many rows there are. -/
def size : Nat := a.rows.length

/-- Whether there are no rows. -/
def isEmpty : Bool := a.rows.isEmpty

/-- The position of a column, which may be named with or without its question mark. -/
def columnIndex? (name : String) : Option Nat :=
  let name := match name.toList with
    | '?' :: rest => String.ofList rest
    | _ => name
  a.columns.findIdx? fun v => v.name = name

/-- The entities of a column, from the first row to the last. -/
def column? (name : String) : Option (List EntityId) := do
  let i ← a.columnIndex? name
  return a.rows.filterMap fun row => row[i]?

/-- The entity in a row and column. -/
def value? (row : Nat) (name : String) : Option EntityId := do
  let i ← a.columnIndex? name
  let row ← a.rows[row]?
  row[i]?

end Answer

end HornOntology
