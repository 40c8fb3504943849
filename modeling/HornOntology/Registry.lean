import HornOntology.Diagnostic
import HornOntology.Entity
import HornOntology.Grouping
import HornOntology.Text.Quoted

set_option autoImplicit false

/-! # The entity registry

The registry gives every name one entity and every entity one identifier. Names are compared
exactly. Interning a name registers it, or finds it again when it already has the requested kind.
`resolve` is more generous than `lookup`: a name that is nobody's qualified name may be the local
name of exactly one entity. -/

namespace HornOntology

/-- Why the registry refused a name. -/
inductive RegistryError where
  /-- The name is taken by an entity of another kind. -/
  | kindConflict (name : String) (existing requested : EntityKind)
  /-- Nobody has this name. -/
  | notFound (name : String)
  /-- The name is the local name of several entities, given by their qualified names. -/
  | ambiguous (name : String) (candidates : List String)
  /-- There is no identifier left. -/
  | exhausted
deriving DecidableEq

/-- The texts for an error of the registry. -/
def RegistryError.diagnostic : RegistryError → Diagnostic
  | .kindConflict name existing requested =>
    { message := s!"entity '{name}' is already registered as {existing.display}, " ++
        s!"cannot re-register as {requested.display}"
      code := "ontorule::registry::kind_conflict"
      help := "An entity name identifies exactly one entity. Rename one of the entities, or use " ++
        "the kind it was first declared with." }
  | .notFound name =>
    { message := s!"entity not found: {name}"
      code := "ontorule::registry::not_found"
      help := "Declare the entity, or reference it in a fact, before looking it up." }
  | .ambiguous name candidates =>
    { message := s!"'{name}' is ambiguous: it could be any of {Text.quotedList candidates}"
      code := "ontorule::registry::ambiguous"
      help := "Write the full qualified name to pick one." }
  | .exhausted =>
    { message := "entity id space exhausted: cannot allocate more than u32::MAX entities"
      code := "ontorule::registry::exhausted"
      help := "A single session cannot hold more than 2^32 - 1 entities." }

/-- The registered entities, with an index by name and one by local name. -/
structure Registry where
  /-- The entity with identifier `n` stands at position `n - 1`. -/
  entities : Array Entity
  /-- The identifier of each qualified name. -/
  ids : Std.HashMap String EntityId
  /-- The entities that share a local name, in registration order. -/
  byLocalName : Grouping String EntityId
  /-- Where new identifiers come from. -/
  supply : IdSupply

namespace Registry

/-- The registry in which nothing is registered. -/
def empty : Registry := ⟨#[], ∅, .empty, .start⟩

/-! ## Looking entities up -/

/-- The entity with an identifier. -/
def get? (r : Registry) (id : EntityId) : Option Entity := r.entities[id.toNat - 1]?

/-- The kind of an entity. -/
def kind? (r : Registry) (id : EntityId) : Option EntityKind := (r.get? id).map Entity.kind

/-- The qualified name of an entity; an identifier that is not registered is shown as such. -/
def name (r : Registry) (id : EntityId) : String := ((r.get? id).map Entity.name).getD id.display

/-- All entities, by identifier. -/
def all (r : Registry) : List Entity := r.entities.toList

/-- The entities of one kind, by identifier. -/
def ofKind (r : Registry) (kind : EntityKind) : List EntityId :=
  (r.all.filter fun e => e.kind = kind).map Entity.id

/-- How many entities are registered. -/
def size (r : Registry) : Nat := r.entities.size

/-- Whether nothing is registered. -/
def isEmpty (r : Registry) : Bool := r.entities.isEmpty

/-- The entity with a qualified name. -/
def lookup (r : Registry) (name : String) : Except RegistryError EntityId :=
  match r.ids[name]? with
  | some id => .ok id
  | none => .error (.notFound name)

/-- The entity with a qualified name, or else the only one with that local name. -/
def resolve (r : Registry) (name : String) : Except RegistryError EntityId :=
  match r.ids[name]? with
  | some id => .ok id
  | none =>
    match (r.byLocalName.get name).toList with
    | [] => .error (.notFound name)
    | [id] => .ok id
    | ids => .error (.ambiguous name (ids.map r.name))

/-- A short description of the registry. -/
def summary (r : Registry) : String := s!"EntityRegistry \x7b count: {r.size} \x7d"

/-! ## Registering entities -/

/-- Put an entity at the position of its identifier: the next one, or one in use. -/
def put (entities : Array Entity) (entity : Entity) : Array Entity :=
  let position := entity.id.toNat - 1
  if position < entities.size then entities.setIfInBounds position entity
  else entities.push entity

/-- Register a name with the next identifier. -/
def register (r : Registry) (name : String) (kind : EntityKind) :
    Except RegistryError EntityId × Registry :=
  match r.supply.take with
  | (none, supply) => (.error .exhausted, { r with supply })
  | (some id, supply) =>
    (.ok id,
      { entities := put r.entities ⟨id, kind, name⟩
        ids := r.ids.insert name id
        byLocalName := r.byLocalName.add (localName name) id
        supply })

/-- The entity of a name, which is registered if it is new. A known name must have the requested
    kind. -/
def intern (r : Registry) (name : String) (kind : EntityKind) :
    Except RegistryError EntityId × Registry :=
  match r.ids[name]? with
  | none => r.register name kind
  | some id =>
    match r.kind? id with
    | none => (.error (.notFound id.display), r)
    | some existing =>
      if existing = kind then (.ok id, r) else (.error (.kindConflict name existing kind), r)

end Registry

/-! ## Registering in sequence -/

/-- Computations that may register names on their way and may be refused. What was registered
    before a refusal stays. -/
abbrev RegistryM := ExceptT RegistryError (StateM Registry)

/-- `Registry.intern` as a step of a computation. -/
def RegistryM.intern (name : String) (kind : EntityKind) : RegistryM EntityId :=
  ExceptT.mk fun r => r.intern name kind

end HornOntology
