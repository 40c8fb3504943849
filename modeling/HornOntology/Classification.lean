import HornOntology.FactStore
import HornOntology.Hierarchy

set_option autoImplicit false

/-! # Classification

Classification checks an ontology with its facts. A class is unsatisfiable if it lies below two
disjoint classes, below a class of which some individual shows that it clashes with a disjoint
one, or below an unsatisfiable class. The ontology is consistent if no individual belongs to an
unsatisfiable class. -/

namespace HornOntology

/-- An individual that belongs to two disjoint classes. -/
structure Clash where
  individual : EntityId
  disjoint : EntityId × EntityId
deriving DecidableEq

/-- The result of classification. -/
structure Classification where
  consistent : Bool
  /-- The classes that can have no members, in increasing order. -/
  unsatisfiable : List EntityId
  clashes : List Clash
  hierarchy : Hierarchy

namespace Classification

/-- The pairs whose members are both among the given classes. -/
def clashing (disjoint : List (EntityId × EntityId)) (classes : List EntityId) :
    List (EntityId × EntityId) :=
  disjoint.filter fun (a, b) => classes.contains a && classes.contains b

/-- The individuals of the memberships, in the order of their first one. -/
def individuals (store : FactStore) : List EntityId :=
  ((store.select .anyMember).filterMap Fact.individual?).eraseDups

/-- The classes that an individual belongs to by its facts and the hierarchy. -/
def closedTypes (hierarchy : Hierarchy) (store : FactStore) (individual : EntityId) :
    List EntityId :=
  hierarchy.closureOf (store.types individual)

/-- The clashes of each individual in turn. -/
def findClashes (hierarchy : Hierarchy) (disjoint : List (EntityId × EntityId))
    (store : FactStore) : List Clash :=
  (individuals store).flatMap fun individual =>
    (clashing disjoint (closedTypes hierarchy store individual)).map (⟨individual, ·⟩)

/-- The classes that lie below two disjoint classes. -/
def selfClashing (hierarchy : Hierarchy) (disjoint : List (EntityId × EntityId)) :
    List EntityId :=
  hierarchy.classes.filter fun cls => !(clashing disjoint (hierarchy.closure cls)).isEmpty

/-- The classes that are unsatisfiable on their own account: below two disjoint classes, or part
    of a clash. -/
def marked (hierarchy : Hierarchy) (disjoint : List (EntityId × EntityId))
    (clashes : List Clash) : List EntityId :=
  selfClashing hierarchy disjoint ++
    clashes.flatMap fun clash => [clash.disjoint.1, clash.disjoint.2]

/-- The classes that lie below a marked one. -/
def reaching (hierarchy : Hierarchy) (marks : List EntityId) : List EntityId :=
  hierarchy.classes.filter fun cls => (hierarchy.closure cls).any marks.contains

/-- Classify an ontology. -/
def classify (registry : Registry) (axioms : List Axiom) (store : FactStore) : Classification :=
  let hierarchy := Hierarchy.build registry axioms
  let disjoint := disjointPairs axioms
  let clashes := findClashes hierarchy disjoint store
  let marks := marked hierarchy disjoint clashes
  let unsatisfiable := sortIds (marks ++ reaching hierarchy marks)
  let consistent := !(individuals store).any fun individual =>
    (closedTypes hierarchy store individual).any unsatisfiable.contains
  { consistent, unsatisfiable, clashes, hierarchy }

variable (c : Classification)

/-- Whether a class can have no members. -/
def isUnsatisfiable (cls : EntityId) : Bool := c.unsatisfiable.contains cls

/-- The classes that an individual belongs to, in increasing order. -/
def inferredTypes (individual : EntityId) (store : FactStore) : List EntityId :=
  closedTypes c.hierarchy store individual

/-- The individuals with a membership below a class, in the order of their first one. -/
def instancesOf (cls : EntityId) (store : FactStore) : List EntityId :=
  ((store.select .anyMember).filterMap fun
    | .member individual asserted =>
      if c.hierarchy.isSubclassOf asserted cls then some individual else none
    | .link _ _ _ => none).eraseDups

end Classification

end HornOntology
