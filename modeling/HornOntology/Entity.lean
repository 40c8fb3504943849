set_option autoImplicit false

/-! # Entities

An ontology talks about named symbols: classes, properties and individuals. Each is known by an
`EntityId`, a nonzero 32-bit word. An `IdSupply` hands out identifiers one after the other; its
counter is itself a 32-bit word, so it passes through zero after the last identifier. A name is
usually written by its last part, the `localName`. -/

namespace HornOntology

/-! ## Identifiers -/

/-- The identifier of an entity: a nonzero 32-bit word. -/
structure EntityId where
  /-- The word itself. -/
  raw : UInt32
  raw_ne_zero : raw ≠ 0
deriving DecidableEq

namespace EntityId

instance : Hashable EntityId := ⟨fun id => hash id.raw⟩

/-- Identifiers are ordered as numbers. -/
instance : LE EntityId := ⟨fun a b => a.raw ≤ b.raw⟩

instance (a b : EntityId) : Decidable (a ≤ b) := inferInstanceAs (Decidable (a.raw ≤ b.raw))

/-- The identifier with a given word; zero is none. -/
def ofRaw? (raw : UInt32) : Option EntityId :=
  if h : raw ≠ 0 then some ⟨raw, h⟩ else none

/-- The identifier with a given number, if the number is in range. -/
def ofInt? (n : Int) : Option EntityId :=
  if 0 < n ∧ n < 4294967296 then ofRaw? (UInt32.ofNat n.toNat) else none

/-- The identifier as a number. -/
def toNat (id : EntityId) : Nat := id.raw.toNat

/-- The text that stands for an entity without a name. -/
def display (id : EntityId) : String := s!"ent:{id.toNat}"

@[ext] theorem ext {a b : EntityId} (h : a.raw = b.raw) : a = b := by
  cases a; cases b; simp_all

theorem toNat_pos (id : EntityId) : 0 < id.toNat := by
  have h := id.raw_ne_zero
  have : id.raw.toNat ≠ 0 := fun h0 => h (UInt32.toNat_inj.1 h0)
  simp only [toNat]; omega

theorem toNat_inj {a b : EntityId} (h : a.toNat = b.toNat) : a = b :=
  EntityId.ext (UInt32.toNat_inj.1 h)

theorem le_iff_toNat_le {a b : EntityId} : a ≤ b ↔ a.toNat ≤ b.toNat := UInt32.le_iff_toNat_le

end EntityId

/-! ## Kinds and names -/

/-- What an entity is. -/
inductive EntityKind where
  | cls
  | objectProperty
  | dataProperty
  | individual
deriving DecidableEq

namespace EntityKind

/-- Object and data properties relate two individuals. -/
def isProperty : EntityKind → Bool
  | objectProperty | dataProperty => true
  | cls | individual => false

/-- The kind as it is written in messages. -/
def display : EntityKind → String
  | cls => "Class"
  | objectProperty => "ObjectProperty"
  | dataProperty => "DataProperty"
  | individual => "Individual"

end EntityKind

/-- Whether a character ends the namespace part of a name. -/
def isNamespaceEnd (c : Char) : Bool := c == '#' || c == '/'

/-- The part of a name after its last `#` or `/`; a name that ends in one of them is its own local
    name. -/
def localName (name : String) : String :=
  let part := (name.toList.reverse.takeWhile fun c => !isNamespaceEnd c).reverse
  if part.isEmpty then name else String.ofList part

/-- A registered entity. -/
structure Entity where
  id : EntityId
  kind : EntityKind
  /-- The qualified name. -/
  name : String
deriving DecidableEq

/-- The local part of the entity's name. -/
def Entity.localName (entity : Entity) : String := HornOntology.localName entity.name

/-! ## The supply of identifiers -/

/-- Hands out identifiers in increasing order. -/
structure IdSupply where
  /-- The word that the next request takes. -/
  next : UInt32
deriving DecidableEq

namespace IdSupply

/-- A supply from which nothing was taken. -/
def start : IdSupply := ⟨1⟩

/-- Take the next identifier. The counter moves on also when it stands at zero, where there is no
    identifier to give. -/
def take (supply : IdSupply) : Option EntityId × IdSupply :=
  (EntityId.ofRaw? supply.next, ⟨supply.next + 1⟩)

/-- Take `count` times; the results in order, and the supply afterwards. -/
def takeMany : Nat → IdSupply → List (Option EntityId) × IdSupply
  | 0, supply => ([], supply)
  | count + 1, supply =>
    let (id, supply) := supply.take
    let (ids, supply) := takeMany count supply
    (id :: ids, supply)

end IdSupply

end HornOntology
