import HornOntology.Entity

set_option autoImplicit false

/-! # Facts and patterns

A fact states that an individual belongs to a class or that a property links two individuals. A
`FactPattern` is a fact with some places left open; it matches the facts of its shape that agree
with it on the places that are filled. -/

namespace HornOntology

/-! ## Facts -/

/-- A ground statement about entities. -/
inductive Fact where
  /-- The individual belongs to the class. -/
  | member (individual cls : EntityId)
  /-- The property relates the subject to the object. -/
  | link (property subject object : EntityId)
deriving DecidableEq, Hashable

/-- The two shapes of facts. -/
inductive FactShape where
  | member
  | link
deriving DecidableEq, Hashable

namespace Fact

/-- Whether the fact is a membership or a link. -/
def shape : Fact → FactShape
  | member _ _ => .member
  | link _ _ _ => .link

/-- The class or property that the fact is about. -/
def predicate : Fact → EntityId
  | member _ cls => cls
  | link property _ _ => property

/-- The individuals that the fact mentions, in order. -/
def arguments : Fact → List EntityId
  | member individual _ => [individual]
  | link _ subject object => [subject, object]

/-- The class of a membership. -/
def cls? : Fact → Option EntityId
  | member _ cls => some cls
  | link _ _ _ => none

/-- The individual of a membership. -/
def individual? : Fact → Option EntityId
  | member individual _ => some individual
  | link _ _ _ => none

/-- The property of a link. -/
def property? : Fact → Option EntityId
  | member _ _ => none
  | link property _ _ => some property

/-- The property and the subject of a link. -/
def propertySubject? : Fact → Option (EntityId × EntityId)
  | member _ _ => none
  | link property subject _ => some (property, subject)

/-- The property and the object of a link. -/
def propertyObject? : Fact → Option (EntityId × EntityId)
  | member _ _ => none
  | link property _ object => some (property, object)

/-- The order of facts: memberships first, then by the entities as they are written. -/
def order : Fact → Fact → Ordering
  | member i c, member i' c' => (compare i.toNat i'.toNat).then (compare c.toNat c'.toNat)
  | member _ _, link _ _ _ => .lt
  | link _ _ _, member _ _ => .gt
  | link p s o, link p' s' o' =>
    ((compare p.toNat p'.toNat).then (compare s.toNat s'.toNat)).then (compare o.toNat o'.toNat)

end Fact

/-! ## Patterns -/

/-- A fact with open places. -/
inductive FactPattern where
  | member (cls individual : Option EntityId)
  | link (property subject object : Option EntityId)
deriving DecidableEq

namespace FactPattern

/-- An open place takes any entity, a filled one only its own. -/
def slot (place : Option EntityId) (value : EntityId) : Bool :=
  match place with
  | none => true
  | some expected => expected = value

/-- Whether a fact has the shape of the pattern and agrees with its filled places. -/
def accepts : FactPattern → Fact → Bool
  | member cls individual, .member i c => slot cls c && slot individual i
  | link property subject object, .link p s o =>
    slot property p && slot subject s && slot object o
  | member _ _, .link _ _ _ => false
  | link _ _ _, .member _ _ => false

/-- The pattern of all memberships. -/
def anyMember : FactPattern := .member none none

/-- The pattern of all links. -/
def anyLink : FactPattern := .link none none none

/-- The pattern that one fact alone matches. -/
def ofFact : Fact → FactPattern
  | .member individual cls => .member (some cls) (some individual)
  | .link property subject object => .link (some property) (some subject) (some object)

@[simp] theorem accepts_ofFact (f g : Fact) : (ofFact f).accepts g = true ↔ f = g := by
  cases f with
  | member => cases g <;> simp [ofFact, accepts, slot, and_comm]
  | link => cases g <;> simp [ofFact, accepts, slot, and_assoc]

end FactPattern

end HornOntology
