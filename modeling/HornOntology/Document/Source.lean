import HornOntology.Document
import HornOntology.Error
import HornOntology.Json.Reader
import HornOntology.Toml.Reader

set_option autoImplicit false

/-! # Documents in files

A document is written in JSON or TOML. Which of them a file holds is told by its name. -/

namespace HornOntology

/-- The languages of documents. -/
inductive DocumentFormat where
  | json
  | toml
deriving DecidableEq

namespace DocumentFormat

/-- The last part of a path, unless it leads upwards. Empty parts and single dots do not count. -/
def fileName? (path : String) : Option (List Char) :=
  let parts := (path.toList.splitOn '/').filter fun part => !part.isEmpty && part != ['.']
  match parts.getLast? with
  | some ['.', '.'] => none
  | name => name

/-- The part of a file name after its last dot, if something stands before that dot. -/
def extension? (name : List Char) : Option (List Char) :=
  let parts := name.splitOn '.'
  match parts.dropLast with
  | [] | [[]] => none
  | _ => parts.getLast?

/-- The format of a file, by the extension of its name in either case. -/
def ofPath? (path : String) : Option DocumentFormat := do
  let extension ← fileName? path >>= extension?
  match String.ofList (extension.map Char.toLower) with
  | "json" => some json
  | "toml" => some toml
  | _ => none

end DocumentFormat

namespace Document

/-- Read a document from a text. -/
def parse (format : DocumentFormat) (text : String) : Except DocumentError Document :=
  match format with
  | .json =>
    match Json.parse? text >>= decode? false with
    | some document => .ok document
    | none => .error .invalidJson
  | .toml =>
    match Toml.parse? text >>= decode? true with
    | some document => .ok document
    | none => .error .invalidToml

/-- Read a document from a file, given the texts of the files that can be read. -/
def load (read : String → Option String) (path : String) : Except DocumentError Document :=
  match DocumentFormat.ofPath? path with
  | none => .error (.unsupportedFormat path)
  | some format =>
    match read path with
    | none => .error (.unreadable path)
    | some text => parse format text

end Document

end HornOntology
