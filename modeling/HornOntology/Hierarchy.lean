import HornOntology.Axiom
import HornOntology.Graph
import HornOntology.Registry
import HornOntology.Rule

set_option autoImplicit false

/-! # The class hierarchy

The axioms span a graph over class expressions: an edge leads from a class to one that contains
it. Complex expressions are nodes like any other, told apart by their form, and classes reach each
other through them. The graph is condensed, and for each component the named classes in it and
those that can be reached from it are looked up once; the hierarchy keeps both for every class. -/

namespace HornOntology

/-! ## The graph -/

/-- An inclusion: the first expression is below the second. -/
abbrev Inclusion := ClassExpr × ClassExpr

/-- The inclusions between neighbours of a list, in both directions. -/
def neighbours : List ClassExpr → List Inclusion
  | a :: b :: rest => (a, b) :: (b, a) :: neighbours (b :: rest)
  | [_] | [] => []

/-- The inclusions that an axiom states. -/
def Axiom.inclusions : Axiom → List Inclusion
  | subClassOf sub sup => [(sub, sup)]
  | equivalentClasses classes => neighbours classes
  | declaration _ | disjointClasses _ => []

/-- The class expressions that an axiom is about. -/
def Axiom.expressions : Axiom → List ClassExpr
  | subClassOf sub sup => [sub, sup]
  | equivalentClasses classes => classes
  | disjointClasses classes => classes.map .named
  | declaration _ => []

/-- The graph of the classes of a registry and of the axioms. -/
def classGraph (registry : Registry) (axioms : List Axiom) : Graph ClassExpr where
  nodes :=
    ((registry.ofKind .cls).map ClassExpr.named ++ axioms.flatMap Axiom.expressions).eraseDups
  edges := axioms.flatMap Axiom.inclusions

/-! ## Closures -/

/-- The identifiers of a list in increasing order, each once. -/
def sortIds (ids : List EntityId) : List EntityId :=
  (ids.mergeSort fun a b => decide (a ≤ b)).eraseDups

/-- The classes of an ontology, each with those that contain it and those equivalent to it. -/
structure Hierarchy where
  /-- The named classes that can be reached from each class, in increasing order. -/
  closures : Std.HashMap EntityId (List EntityId)
  /-- The named classes in the component of each class, in increasing order. -/
  groups : Std.HashMap EntityId (List EntityId)

namespace Hierarchy

/-- The named classes in a component. -/
def namedIn (condensed : Condensation ClassExpr) (place : Nat) : List EntityId :=
  (condensed.components.getD place []).filterMap ClassExpr.named?

/-- The named classes in the components that can be reached from a component. -/
def namedFrom (condensed : Condensation ClassExpr) (outgoing : Grouping Nat (Nat × Nat))
    (place : Nat) : List EntityId :=
  let reached := Graph.visit outgoing condensed.graph.searchFuel [place] ∅
  sortIds (reached.toList.flatMap (namedIn condensed))

/-- Each named class in a component, with the classes that can be reached from it and with those
    that share the component. -/
def entries (condensed : Condensation ClassExpr) (outgoing : Grouping Nat (Nat × Nat))
    (place : Nat) : List (EntityId × List EntityId × List EntityId) :=
  let members := sortIds (namedIn condensed place)
  if members.isEmpty then []
  else
    let reachable := namedFrom condensed outgoing place
    members.map fun cls => (cls, reachable, members)

/-- The hierarchy of an ontology. -/
def build (registry : Registry) (axioms : List Axiom) : Hierarchy :=
  let condensed := (classGraph registry axioms).condense
  let outgoing := condensed.graph.outgoing
  let all := condensed.graph.nodes.flatMap (entries condensed outgoing)
  { closures := .ofList (all.map fun entry => (entry.1, entry.2.1))
    groups := .ofList (all.map fun entry => (entry.1, entry.2.2)) }

variable (h : Hierarchy)

/-- The classes of the hierarchy, in increasing order. -/
def classes : List EntityId := sortIds h.closures.keys

/-- The named classes that contain a class, itself among them. A class that is not known contains
    only itself. -/
def closure (cls : EntityId) : List EntityId := h.closures.getD cls [cls]

/-- The other classes that contain a class. -/
def superclasses (cls : EntityId) : List EntityId := (h.closure cls).filter (· ≠ cls)

/-- Whether one class contains the other. -/
def isSubclassOf (sub sup : EntityId) : Bool :=
  sub = sup || h.closures[sub]?.any (·.contains sup)

/-- The other classes that a class contains. -/
def subclasses (cls : EntityId) : List EntityId :=
  h.classes.filter fun sub => sub ≠ cls && (h.closure sub).contains cls

/-- The other classes that share the component of a class. -/
def equivalents (cls : EntityId) : List EntityId := (h.groups.getD cls []).filter (· ≠ cls)

/-- The classes that contain one of the given classes. -/
def closureOf (classes : List EntityId) : List EntityId := sortIds (classes.flatMap h.closure)

/-- The pairs of different classes of which the second contains the first, in order. -/
def subsumptions : List (EntityId × EntityId) :=
  h.classes.flatMap fun sub => (h.superclasses sub).map fun sup => (sub, sup)

/-- Rules that let every member of a class be a member of the classes that contain it. -/
def rules : List (Rule EntityId) :=
  h.subsumptions.map fun (sub, sup) =>
    { name := s!"sub-class-of:{sub.toNat}:{sup.toNat}"
      body := [.member sub (.var ⟨"x"⟩)]
      head := [.member sup (.var ⟨"x"⟩)] }

end Hierarchy

end HornOntology
