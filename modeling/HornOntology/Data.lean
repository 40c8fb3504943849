set_option autoImplicit false

/-! # Structured data

`Data` is what a JSON or TOML text denotes, as far as documents and configurations look at it:
texts, whole numbers, truth values, lists and tables. A table keeps its fields as written, with
repetitions.

Some values are well formed but cannot be held: a string with half of a surrogate pair, a number
beyond the range of numbers, brackets nested too deeply. They are `unreadable`. Where a value is
skipped that does no harm; a value that is held must be readable throughout. -/

namespace HornOntology

/-- The value of a structured text. -/
inductive Data where
  | string (text : String)
  | integer (value : Int)
  | boolean (value : Bool)
  /-- Any other single value: null, a fraction. -/
  | scalar
  | list (items : List Data)
  | table (fields : List (String × Data))
  | unreadable

namespace Data

mutual

/-- Whether every part of a value can be held. -/
def isReadable : Data → Bool
  | list items => areReadable items
  | table fields => fieldsReadable fields
  | unreadable => false
  | string _ | integer _ | boolean _ | scalar => true

/-- Whether every value of a list can be held. -/
def areReadable : List Data → Bool
  | [] => true
  | item :: rest => isReadable item && areReadable rest

/-- Whether every field of a table can be held. -/
def fieldsReadable : List (String × Data) → Bool
  | [] => true
  | (_, value) :: rest => isReadable value && fieldsReadable rest

end

/-! ## Views -/

/-- The text of a string. -/
def string? : Data → Option String
  | string text => some text
  | _ => none

/-- The items of a list. -/
def list? : Data → Option (List Data)
  | list items => some items
  | _ => none

/-- The truth value of a boolean. -/
def boolean? : Data → Option Bool
  | boolean value => some value
  | _ => none

/-- The value of a whole number that is not negative. -/
def natural? : Data → Option Nat
  | integer (.ofNat n) => some n
  | _ => none

/-- The texts of a list of strings. -/
def strings? (data : Data) : Option (List String) := do
  (← data.list?).mapM string?

/-! ## Fields -/

/-- The values of all fields with a name. -/
def valuesOf (name : String) (fields : List (String × Data)) : List Data :=
  (fields.filter fun f => f.1 = name).map Prod.snd

/-- The value of a field that may be missing. A field that is written twice is an error. -/
def optionalField? (name : String) (fields : List (String × Data)) : Option (Option Data) :=
  match valuesOf name fields with
  | [] => some none
  | [value] => some (some value)
  | _ => none

/-- The value of a field that must be there. -/
def field? (name : String) (fields : List (String × Data)) : Option Data :=
  match valuesOf name fields with
  | [value] => some value
  | _ => none

/-- The values of the named fields of a record, which is written as a table, or as a list of the
    values in the order of the names. A table may have other fields; the end of a list may be
    missing; `surplus` tells whether a list may have further items, which are skipped. -/
def record? (surplus : Bool) (names : List String) : Data → Option (List (Option Data))
  | table fields => names.mapM (optionalField? · fields)
  | list items =>
    if surplus ∨ items.length ≤ names.length then
      some (names.mapIdx fun position _ => items[position]?)
    else none
  | _ => none

end Data

end HornOntology
