import HornOntology.Document

set_option autoImplicit false

/-! # Writing a document and reading it back

The data that a document is written as is read back as that document (`decode?_encode`). Facts and
class expressions are written without saying which kind they are; the reader tries the kinds one
after the other. That the right one is tried first would be enough, but more is true: of all kinds
only the one that was written fits (`FactEntry.readings_encode`, `ClassEntry.readings_encode`). -/

namespace HornOntology

/-! ## Lists -/

/-- What can be read back item by item can be read back as a list. -/
theorem listOf?_map {α : Type} {read? : Data → Option α} {write : α → Data}
    (h : ∀ a, read? (write a) = some a) (items : List α) :
    listOf? read? (.list (items.map write)) = some items := by
  have hitems : (items.map write).mapM read? = some items := by
    induction items with
    | nil => rfl
    | cons item items ih => simp [h, ih]
  simpa [listOf?, Data.list?] using hitems

theorem Data.strings?_ofStrings (names : List String) :
    Data.strings? (.ofStrings names) = some names :=
  @listOf?_map _ Data.string? Data.string (fun _ => rfl) names

theorem Data.isReadable_ofStrings (names : List String) :
    (Data.ofStrings names).isReadable = true := by
  rw [Data.ofStrings, Data.isReadable]
  induction names with
  | nil => simp [Data.areReadable]
  | cons name names ih => simp [Data.areReadable, Data.isReadable, ih]

/-! ## Facts -/

namespace FactEntry

/-- Every reading of data as a fact, in the order in which they are tried. -/
def readings : Data → List FactEntry
  | .table fields => (member? fields).toList ++ (link? fields).toList
  | _ => []

/-- The first reading that fits is taken, if the data can be held. -/
theorem decode?_eq_head? (data : Data) :
    decode? data = if data.isReadable then (readings data).head? else none := by
  cases data with
  | table fields =>
    simp only [decode?, readings]
    cases member? fields with
    | some fact => rfl
    | none => cases link? fields <;> rfl
  | _ => simp [decode?, readings]

theorem isReadable_encode (fact : FactEntry) : fact.encode.isReadable = true := by
  cases fact <;> simp [encode, Data.isReadable, Data.fieldsReadable]

/-- A membership has no subject and a link has no individual. -/
theorem readings_encode (fact : FactEntry) : readings fact.encode = [fact] := by
  cases fact with
  | member individual cls =>
    simp [encode, readings, member?, link?, Data.field?, Data.valuesOf, Data.string?]
  | link subject property object =>
    simp [encode, readings, member?, link?, Data.field?, Data.valuesOf, Data.string?]

theorem decode?_encode (fact : FactEntry) : decode? fact.encode = some fact := by
  rw [decode?_eq_head?, if_pos fact.isReadable_encode, readings_encode, List.head?_cons]

end FactEntry

/-! ## Class expressions -/

namespace ClassEntry

/-- Every reading of data as a class expression, in the order in which they are tried. -/
def readings : Data → List ClassEntry
  | .string name => [named name]
  | .table fields =>
    ((decodeParts? none fields).join.map intersection).toList ++ (hasValue? fields).toList
  | _ => []

/-- The first reading that fits is taken. -/
theorem decode?_eq_head? (data : Data) : decode? data = (readings data).head? := by
  cases data with
  | string name => simp [decode?, readings]
  | table fields =>
    simp only [decode?, readings]
    rcases decodeParts? none fields with _ | _ | parts
    · cases hasValue? fields <;> rfl
    · cases hasValue? fields <;> rfl
    · rfl
  | _ => simp [decode?, readings]

mutual

theorem isReadable_encode (entry : ClassEntry) : entry.encode.isReadable = true := by
  cases entry with
  | named name => simp [encode, Data.isReadable]
  | intersection parts =>
    simp [encode, Data.isReadable, Data.fieldsReadable, areReadable_encodeAll parts]
  | hasValue property value => simp [encode, Data.isReadable, Data.fieldsReadable]

theorem areReadable_encodeAll (entries : List ClassEntry) :
    Data.areReadable (encodeAll entries) = true := by
  cases entries with
  | nil => simp [encodeAll, Data.areReadable]
  | cons entry entries =>
    simp [encodeAll, Data.areReadable, isReadable_encode entry, areReadable_encodeAll entries]

end

mutual

/-- A name is no table, an intersection has no property, and a value restriction has no parts. -/
theorem readings_encode (entry : ClassEntry) : readings entry.encode = [entry] := by
  cases entry with
  | named name => simp [encode, readings]
  | intersection parts =>
    simp [encode, readings, decodeParts?, decodeAll?_encodeAll parts, hasValue?, Data.field?,
      Data.valuesOf]
  | hasValue property value =>
    simp [encode, readings, decodeParts?, hasValue?, Data.field?, Data.valuesOf, Data.string?]

theorem decodeAll?_encodeAll (entries : List ClassEntry) :
    decodeAll? (encodeAll entries) = some entries := by
  cases entries with
  | nil => simp [encodeAll, decodeAll?]
  | cons entry entries =>
    have hentry : decode? entry.encode = some entry := by
      rw [decode?_eq_head?, readings_encode entry, List.head?_cons]
    simp [encodeAll, decodeAll?, hentry, decodeAll?_encodeAll entries]

end

theorem decode?_encode (entry : ClassEntry) : decode? entry.encode = some entry := by
  rw [decode?_eq_head?, readings_encode, List.head?_cons]

end ClassEntry

/-! ## Axioms, texts and declarations -/

theorem AxiomEntry.decode?_encode (entry : AxiomEntry) : decode? entry.encode = some entry := by
  cases entry with
  | subClassOf sub sup =>
    simp [encode, decode?, ofFields?, Data.isReadable, Data.fieldsReadable, Data.field?,
      Data.valuesOf, Data.string?, ClassEntry.isReadable_encode, ClassEntry.decode?_encode]
  | equivalentClasses classes =>
    simp [encode, decode?, ofFields?, Data.isReadable, Data.fieldsReadable, Data.field?,
      Data.valuesOf, Data.string?, Data.list?, ClassEntry.areReadable_encodeAll,
      ClassEntry.decodeAll?_encodeAll]
  | disjointClasses classes =>
    simp [encode, decode?, ofFields?, Data.isReadable, Data.fieldsReadable, Data.field?,
      Data.valuesOf, Data.string?, Data.isReadable_ofStrings, Data.strings?_ofStrings]

theorem TextEntry.decode?_encode (surplus : Bool) (entry : TextEntry) :
    decode? surplus entry.encode = some entry := by
  simp [encode, decode?, Data.record?, Data.optionalField?, Data.valuesOf, Data.string?]

theorem Declarations.decode?_encode (surplus : Bool) (d : Declarations) :
    decode? surplus d.encode = some d := by
  simp [encode, decode?, Data.record?, Data.optionalField?, Data.valuesOf, orEmpty,
    Data.strings?_ofStrings]

theorem Document.decode?_encode (surplus : Bool) (d : Document) :
    decode? surplus d.encode = some d := by
  simp [encode, decode?, Data.record?, Data.optionalField?, Data.valuesOf, orEmpty,
    Declarations.decode?_encode, listOf?_map AxiomEntry.decode?_encode,
    listOf?_map FactEntry.decode?_encode, listOf?_map (TextEntry.decode?_encode surplus)]

/-- **A document is read back as it was written.** Reading takes the first kind of fact or class
    expression that fits, and of what was written as a fact or a class expression only the kind
    that it was fits, at every level of nesting. -/
theorem document_reads_back (surplus : Bool) :
    (∀ d : Document, Document.decode? surplus d.encode = some d) ∧
      (∀ data, FactEntry.decode? data =
        if data.isReadable then (FactEntry.readings data).head? else none) ∧
      (∀ fact : FactEntry, FactEntry.readings fact.encode = [fact]) ∧
      (∀ data, ClassEntry.decode? data = (ClassEntry.readings data).head?) ∧
      ∀ entry : ClassEntry, ClassEntry.readings entry.encode = [entry] :=
  ⟨Document.decode?_encode surplus, FactEntry.decode?_eq_head?, FactEntry.readings_encode,
    ClassEntry.decode?_eq_head?, ClassEntry.readings_encode⟩

end HornOntology
