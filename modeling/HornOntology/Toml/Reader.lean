import HornOntology.Toml.Scalar
import HornOntology.Toml.Tree

set_option autoImplicit false

/-! # Reading TOML

A TOML text is a row of lines: headers that open a table, and keys with values for the table that
is open. Lists and tables inside values may nest to a limit, which is also what the reader of
values recurses on. -/

namespace HornOntology.Toml

/-! ## Values -/

/-- The items of a list up to its closing bracket, after those found so far, last one first. -/
def items (item : Reader Data) : (fuel : Nat) → (found : List Data) → Reader (List Data)
  | 0, _, _ => none
  | fuel + 1, found, text => do
    match ← skipBlank? text with
    | ']' :: rest => some (found.reverse, rest)
    | text =>
      let (data, rest) ← item text
      match ← skipBlank? rest with
      | ',' :: rest => items item fuel (data :: found) rest
      | ']' :: rest => some ((data :: found).reverse, rest)
      | _ => none

/-- A key and its value. -/
def assignment? (item : Reader Data) (text : List Char) :
    Option ((List String × Data) × List Char) := do
  let (key, rest) ← key? text
  let rest ← expect? '=' rest
  let (data, rest) ← item (skipSpaces rest)
  return ((key, data), rest)

/-- The assignments of a table in braces up to its closing brace, after those found so far, last
    one first. -/
def assignments (item : Reader Data) :
    (fuel : Nat) → (found : List (List String × Data)) → Reader (List (List String × Data))
  | 0, _, _ => none
  | fuel + 1, found, text => do
    let (entry, rest) ← assignment? item text
    match skipSpaces rest with
    | ',' :: rest => assignments item fuel (entry :: found) rest
    | '\x7d' :: rest => some ((entry :: found).reverse, rest)
    | _ => none

/-- Make an assignment in a table. -/
def Fields.run (fields : Fields) (entry : List String × Data) : Option Fields := do
  let name ← entry.1.getLast?
  fields.assign entry.1.dropLast name entry.2

/-- The table that assignments give. -/
def tableOf? (entries : List (List String × Data)) : Option Data := do
  let fields ← entries.foldlM Fields.run []
  return .table (fieldsToData fields)

/-- A value. The number bounds how deep lists and tables nest in it. -/
def value? : (depth : Nat) → Reader Data
  | 0, _ => none
  | depth + 1, text =>
    match text with
    | '"' :: _ => (string? .basic text).map fun (s, rest) => (.string s, rest)
    | '\x27' :: _ => (string? .literal text).map fun (s, rest) => (.string s, rest)
    | '[' :: rest =>
      if depth = 0 then none
      else (items (value? depth) (rest.length + 1) [] rest).map fun (found, rest) =>
        (.list found, rest)
    | '\x7b' :: rest =>
      if depth = 0 then none
      else
        match skipSpaces rest with
        | '\x7d' :: rest => some (.table [], rest)
        | rest => do
          let (entries, rest) ← assignments (value? depth) (rest.length + 1) [] rest
          return (← tableOf? entries, rest)
    | text => scalar? text

/-! ## Lines -/

/-- The document so far: its fields, and the path of the table that is open. -/
structure Progress where
  fields : Fields
  header : List String

namespace Progress

/-- Open the table of a header. -/
def open? (p : Progress) (isElement : Bool) (path : List String) : Option Progress := do
  let name ← path.getLast?
  let fields ← if isElement then p.fields.openElement path.dropLast name
    else p.fields.openTable path.dropLast name
  return ⟨fields, path⟩

/-- Make an assignment in the table that is open. -/
def assign? (p : Progress) (entry : List String × Data) : Option Progress := do
  let fields ← Fields.descend .implied (fun _ inner => inner.run entry) p.header .written p.fields
  return { p with fields }

/-- Read a header. -/
def header? (p : Progress) (text : List Char) : Option (Progress × List Char) :=
  match text with
  | '[' :: '[' :: rest => do
    let (path, rest) ← key? rest
    let rest ← expect? ']' rest
    let rest ← expect? ']' rest
    return (← p.open? true path, ← finishLine? rest)
  | '[' :: rest => do
    let (path, rest) ← key? rest
    let rest ← expect? ']' rest
    return (← p.open? false path, ← finishLine? rest)
  | _ => none

/-- Read an assignment. -/
def entry? (p : Progress) (text : List Char) : Option (Progress × List Char) := do
  let (entry, rest) ← assignment? (value? depthLimit) text
  return (← p.assign? entry, ← finishLine? rest)

/-- Read all lines. Each takes at least one character, so the length of the text is fuel
    enough. -/
def lines (p : Progress) : (fuel : Nat) → List Char → Option Progress
  | 0, _ => none
  | fuel + 1, text =>
    match skipSpaces text with
    | [] => some p
    | '#' :: rest => do lines p fuel (← finishLine? ('#' :: rest))
    | '\n' :: rest => lines p fuel rest
    | '\r' :: rest => do lines p fuel (← lineEnd? ('\r' :: rest))
    | '[' :: rest => do
      let (p, rest) ← p.header? ('[' :: rest)
      lines p fuel rest
    | rest => do
      let (p, rest) ← p.entry? rest
      lines p fuel rest

end Progress

/-- A text without the byte order mark it may start with. -/
def skipMark : List Char → List Char
  | '\ufeff' :: rest => rest
  | text => text

/-- The value of a text, if it is TOML: the table of the whole document. -/
def parse? (text : String) : Option Data := do
  let text := skipMark text.toList
  let p ← (Progress.mk [] []).lines (text.length + 1) text
  return .table (fieldsToData p.fields)

end HornOntology.Toml
