import HornOntology.Data

set_option autoImplicit false

/-! # Documents

A document is an ontology in text form: declarations, axioms, facts, rules and queries, all by
name. `Document.encode` writes a document as structured data and `Document.decode?` reads one.
Reading is lenient in three ways: a record may be written as a list of its fields, fields that are
not known are skipped, and the parts of a document and of its declarations may be missing. -/

namespace HornOntology

/-! ## The parts of a document -/

/-- The names that are declared, by kind. -/
structure Declarations where
  classes : List String
  objectProperties : List String
  dataProperties : List String
  individuals : List String
deriving DecidableEq

/-- A class expression over names. -/
inductive ClassEntry where
  | named (name : String)
  | intersection (parts : List ClassEntry)
  | hasValue (property value : String)

/-- An axiom over names. -/
inductive AxiomEntry where
  | subClassOf (sub sup : ClassEntry)
  | equivalentClasses (classes : List ClassEntry)
  | disjointClasses (classes : List String)

/-- A fact over names. -/
inductive FactEntry where
  | member (individual cls : String)
  | link (subject property object : String)
deriving DecidableEq

/-- A named rule or query text. -/
structure TextEntry where
  name : String
  text : String
deriving DecidableEq

/-- An ontology in text form. -/
structure Document where
  declarations : Declarations
  axioms : List AxiomEntry
  facts : List FactEntry
  rules : List TextEntry
  queries : List TextEntry

/-! ## Writing -/

/-- A list of names as data. -/
def Data.ofStrings (names : List String) : Data := .list (names.map .string)

/-- Declarations as data. -/
def Declarations.encode (d : Declarations) : Data :=
  .table [("classes", .ofStrings d.classes), ("object_properties", .ofStrings d.objectProperties),
    ("data_properties", .ofStrings d.dataProperties), ("individuals", .ofStrings d.individuals)]

namespace ClassEntry

mutual

/-- A class expression as data. -/
def encode : ClassEntry → Data
  | named name => .string name
  | intersection parts => .table [("intersection_of", .list (encodeAll parts))]
  | hasValue property value =>
    .table [("property", .string property), ("has_value", .string value)]

/-- Class expressions as data, one by one. -/
def encodeAll : List ClassEntry → List Data
  | [] => []
  | part :: rest => encode part :: encodeAll rest

end

end ClassEntry

/-- An axiom as data. -/
def AxiomEntry.encode : AxiomEntry → Data
  | subClassOf sub sup =>
    .table [("type", .string "sub_class_of"), ("sub", sub.encode), ("sup", sup.encode)]
  | equivalentClasses classes =>
    .table [("type", .string "equivalent_classes"),
      ("classes", .list (ClassEntry.encodeAll classes))]
  | disjointClasses classes =>
    .table [("type", .string "disjoint_classes"), ("classes", .ofStrings classes)]

/-- A fact as data. -/
def FactEntry.encode : FactEntry → Data
  | member individual cls => .table [("individual", .string individual), ("class", .string cls)]
  | link subject property object =>
    .table [("subject", .string subject), ("property", .string property),
      ("object", .string object)]

/-- A rule or query text as data. -/
def TextEntry.encode (entry : TextEntry) : Data :=
  .table [("name", .string entry.name), ("text", .string entry.text)]

/-- A document as data. -/
def Document.encode (d : Document) : Data :=
  .table [("declarations", d.declarations.encode),
    ("axioms", .list (d.axioms.map AxiomEntry.encode)),
    ("facts", .list (d.facts.map FactEntry.encode)),
    ("rules", .list (d.rules.map TextEntry.encode)),
    ("queries", .list (d.queries.map TextEntry.encode))]

/-! ## Reading -/

/-- A part that may be missing; then it is empty. -/
def orEmpty {α : Type} (read? : Data → Option (List α)) : Option Data → Option (List α)
  | none => some []
  | some data => read? data

/-- Read every item of a list. -/
def listOf? {α : Type} (read? : Data → Option α) (data : Data) : Option (List α) := do
  (← data.list?).mapM read?

/-- Read declarations. -/
def Declarations.decode? (surplus : Bool) (data : Data) : Option Declarations := do
  match ← data.record? surplus ["classes", "object_properties", "data_properties", "individuals"] with
  | [classes, objectProperties, dataProperties, individuals] =>
    return {
      classes := ← orEmpty Data.strings? classes
      objectProperties := ← orEmpty Data.strings? objectProperties
      dataProperties := ← orEmpty Data.strings? dataProperties
      individuals := ← orEmpty Data.strings? individuals }
  | _ => none

namespace ClassEntry

/-- A value restriction, if the fields are those of one. -/
def hasValue? (fields : List (String × Data)) : Option ClassEntry := do
  let property ← Data.field? "property" fields >>= Data.string?
  let value ← Data.field? "has_value" fields >>= Data.string?
  return hasValue property value

mutual

/-- Read a class expression: a name, or a table that is an intersection or else a value
    restriction. -/
def decode? : Data → Option ClassEntry
  | .string name => some (named name)
  | .table fields =>
    match decodeParts? none fields with
    | some (some parts) => some (intersection parts)
    | _ => hasValue? fields
  | _ => none

/-- Read class expressions, one by one. -/
def decodeAll? : List Data → Option (List ClassEntry)
  | [] => some []
  | item :: rest => do
    let part ← decode? item
    let parts ← decodeAll? rest
    return part :: parts

/-- Read the parts of an intersection from its only field of that name, given those found so
    far. -/
def decodeParts? (found : Option (List ClassEntry)) :
    List (String × Data) → Option (Option (List ClassEntry))
  | [] => some found
  | (name, value) :: rest =>
    if name = "intersection_of" then
      match found, value with
      | none, .list items =>
        match decodeAll? items with
        | some parts => decodeParts? (some parts) rest
        | none => none
      | _, _ => none
    else decodeParts? found rest

end

end ClassEntry

namespace AxiomEntry

/-- Read an axiom of a type from the values of its fields. -/
def ofFields? (type : String) (field? : String → Nat → Option Data) (count : Option Nat) :
    Option AxiomEntry := do
  let exactly (n : Nat) : Option Unit := if count.all (· = n) then some () else none
  match type with
  | "sub_class_of" =>
    exactly 2
    return subClassOf (← field? "sub" 0 >>= ClassEntry.decode?)
      (← field? "sup" 1 >>= ClassEntry.decode?)
  | "equivalent_classes" =>
    exactly 1
    return equivalentClasses (← field? "classes" 0 >>= Data.list? >>= ClassEntry.decodeAll?)
  | "disjoint_classes" =>
    exactly 1
    return disjointClasses (← field? "classes" 0 >>= Data.strings?)
  | _ => none

/-- Read an axiom: a table with a field `type`, or a list that starts with the type. Every part
    of it is held, so it must be readable. -/
def decode? (data : Data) : Option AxiomEntry :=
  if data.isReadable then
    match data with
    | .table fields => do
      let type ← Data.field? "type" fields >>= Data.string?
      ofFields? type (fun name _ => Data.field? name fields) none
    | .list (.string type :: items) =>
      ofFields? type (fun _ position => items[position]?) (some items.length)
    | _ => none
  else none

end AxiomEntry

namespace FactEntry

/-- A membership, if the fields are those of one. -/
def member? (fields : List (String × Data)) : Option FactEntry := do
  let individual ← Data.field? "individual" fields >>= Data.string?
  let cls ← Data.field? "class" fields >>= Data.string?
  return member individual cls

/-- A link, if the fields are those of one. -/
def link? (fields : List (String × Data)) : Option FactEntry := do
  let subject ← Data.field? "subject" fields >>= Data.string?
  let property ← Data.field? "property" fields >>= Data.string?
  let object ← Data.field? "object" fields >>= Data.string?
  return link subject property object

/-- Read a fact: a table that is a membership, or else a link. Every part of it is held, so it
    must be readable. -/
def decode? (data : Data) : Option FactEntry :=
  if data.isReadable then
    match data with
    | .table fields => (member? fields).orElse fun _ => link? fields
    | _ => none
  else none

end FactEntry

/-- Read a rule or query text. -/
def TextEntry.decode? (surplus : Bool) (data : Data) : Option TextEntry := do
  match ← data.record? surplus ["name", "text"] with
  | [some name, some text] => return ⟨← name.string?, ← text.string?⟩
  | _ => none

/-- Declarations of nothing. -/
def Declarations.empty : Declarations := ⟨[], [], [], []⟩

/-- Read a document; `surplus` tells whether a record that is written as a list may be followed
    by further items. -/
def Document.decode? (surplus : Bool) (data : Data) : Option Document := do
  match ← data.record? surplus ["declarations", "axioms", "facts", "rules", "queries"] with
  | [declarations, axioms, facts, rules, queries] =>
    let declarations ← match declarations with
      | none => some Declarations.empty
      | some data => Declarations.decode? surplus data
    return {
      declarations
      axioms := ← orEmpty (listOf? AxiomEntry.decode?) axioms
      facts := ← orEmpty (listOf? FactEntry.decode?) facts
      rules := ← orEmpty (listOf? (TextEntry.decode? surplus)) rules
      queries := ← orEmpty (listOf? (TextEntry.decode? surplus)) queries }
  | _ => none

end HornOntology
