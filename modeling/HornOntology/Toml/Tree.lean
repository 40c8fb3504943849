import HornOntology.Data

set_option autoImplicit false

/-! # Tables under construction

A TOML text gives its tables piece by piece: by headers, by headers of tables inside them, and by
keys with dots. `Node` is a table that may still grow. It remembers how it came about, because a
table that was written out may not be written out again or be extended by keys with dots. -/

namespace HornOntology.Toml

/-- How a table came about. -/
inductive Origin where
  /-- It has a header of its own. -/
  | written
  /-- The header of a table inside it mentioned it. -/
  | implied
  /-- A key with dots mentioned it. -/
  | dotted
deriving DecidableEq

/-- A field's value while a text is being read. -/
inductive Node where
  | value (data : Data)
  | table (origin : Origin) (fields : List (String × Node))
  /-- Tables with equal headers in double brackets, last one first. -/
  | tables (elements : List (List (String × Node)))

/-- The fields of a table, in no particular order. -/
abbrev Fields := List (String × Node)

namespace Fields

/-- The field with a name. -/
def get? (fields : Fields) (name : String) : Option Node := fields.lookup name

/-- Give a field a new value. -/
def set (fields : Fields) (name : String) (node : Node) : Fields :=
  fields.map fun f => if f.1 = name then (name, node) else f

/-- Add a field that is not there. -/
def add (fields : Fields) (name : String) (node : Node) : Fields := (name, node) :: fields

/-- Change the table at a path. Tables on the way that are not there are made, with the given
    origin; keys with dots do not enter a table with a header of its own. The change is told the
    origin of the table that it is to change, which is `written` for the table at the start. -/
def descend (made : Origin) (change : Origin → Fields → Option Fields) :
    (path : List String) → Origin → Fields → Option Fields
  | [], origin, fields => change origin fields
  | name :: path, _, fields =>
    match fields.get? name with
    | none => do
      let inner ← descend made change path made []
      return fields.add name (.table made inner)
    | some (.table origin inner) =>
      if made = .dotted ∧ origin = .written then none
      else do
        let inner ← descend made change path origin inner
        return fields.set name (.table origin inner)
    | some (.tables (last :: earlier)) => do
      let last ← descend made change path .written last
      return fields.set name (.tables (last :: earlier))
    | some (.tables []) => none
    | some (.value _) => none

/-- Set a field that is not there, in a table given by dotted keys: only a table that came about
    in this way can be extended so. -/
def assign (path : List String) (name : String) (data : Data) (fields : Fields) :
    Option Fields :=
  descend .dotted
    (fun origin inner =>
      if ¬ path.isEmpty ∧ origin ≠ .dotted then none
      else if (inner.get? name).isSome then none
      else some (inner.add name (.value data)))
    path .written fields

/-- Open the table of a header: a new one, or one that was only implied. -/
def openTable (path : List String) (name : String) (fields : Fields) : Option Fields :=
  descend .implied
    (fun _ inner =>
      match inner.get? name with
      | none => some (inner.add name (.table .written []))
      | some (.table .implied content) => some (inner.set name (.table .written content))
      | some _ => none)
    path .written fields

/-- Open one more table of a header in double brackets. -/
def openElement (path : List String) (name : String) (fields : Fields) : Option Fields :=
  descend .implied
    (fun _ inner =>
      match inner.get? name with
      | none => some (inner.add name (.tables [[]]))
      | some (.tables elements) => some (inner.set name (.tables ([] :: elements)))
      | some _ => none)
    path .written fields

end Fields

mutual

/-- The value of a field when the text is complete. -/
def Node.toData : Node → Data
  | .value data => data
  | .table _ fields => .table (fieldsToData fields)
  | .tables elements => .list (elementsToData elements).reverse

/-- The fields of a table when the text is complete. -/
def fieldsToData : List (String × Node) → List (String × Data)
  | [] => []
  | (name, node) :: rest => (name, node.toData) :: fieldsToData rest

/-- The tables of a list when the text is complete. -/
def elementsToData : List (List (String × Node)) → List Data
  | [] => []
  | fields :: rest => .table (fieldsToData fields) :: elementsToData rest

end

end HornOntology.Toml
