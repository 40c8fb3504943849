import HornOntology.Grouping
import Std.Data.HashSet

set_option autoImplicit false

/-! # Directed graphs

A graph is searched from a node (`visit`), and condensed (`condense`): each of its strongly
connected components becomes one node of a new graph, and the edges of the new graph are those
between different components. The component of a node is found by two searches, one of them
against the edges. -/

namespace HornOntology

/-- A directed graph: its nodes, each once, and its edges. -/
structure Graph (ν : Type) where
  nodes : List ν
  edges : List (ν × ν)

/-- A graph whose components have become nodes. -/
structure Condensation (ν : Type) where
  /-- The nodes that make up each component. -/
  components : Array (List ν)
  /-- The graph over the places of the components. -/
  graph : Graph Nat

namespace Graph

variable {ν : Type} [DecidableEq ν] [Hashable ν]

/-- The edges that begin at each node. -/
def outgoing (g : Graph ν) : Grouping ν (ν × ν) := .ofList Prod.fst g.edges

/-- The graph with every edge turned round. -/
def reverse (g : Graph ν) : Graph ν := ⟨g.nodes, g.edges.map Prod.swap⟩

/-- Visit what can be reached from the nodes that wait; every visit of a new node makes its
    successors wait. The fuel bounds how often a node is taken from the list. -/
def visit (outgoing : Grouping ν (ν × ν)) : (fuel : Nat) → List ν → Std.HashSet ν → Std.HashSet ν
  | 0, _, visited => visited
  | _ + 1, [], visited => visited
  | fuel + 1, node :: waiting, visited =>
    if visited.contains node then visit outgoing fuel waiting visited
    else
      visit outgoing fuel ((outgoing.get node).toList.map Prod.snd ++ waiting)
        (visited.insert node)

/-- How often nodes are taken from the list in a search from one of them: a node waits once at the
    start and at most once for each edge. -/
def searchFuel (g : Graph ν) : Nat := g.edges.length + 1

/-! ## Condensation -/

/-- The strongly connected component of a node: the nodes that it reaches and that reach it. -/
def component (g : Graph ν) (outgoing incoming : Grouping ν (ν × ν)) (node : ν) : List ν :=
  let after := visit outgoing g.searchFuel [node] ∅
  let before := visit incoming g.searchFuel [node] ∅
  g.nodes.filter fun other => after.contains other && before.contains other

/-- Components that were found, and the place of each of their nodes among them. -/
structure Found (ν : Type) [BEq ν] [Hashable ν] where
  components : Array (List ν)
  place : Std.HashMap ν Nat

/-- Add a component after those that were found before. -/
def Found.add (found : Found ν) (component : List ν) : Found ν :=
  { components := found.components.push component
    place := component.foldl (fun place node => place.insert node found.components.size)
      found.place }

/-- Find the component of a node, unless it was found already. -/
def collect (g : Graph ν) (outgoing incoming : Grouping ν (ν × ν)) (found : Found ν) (node : ν) :
    Found ν :=
  if found.place.contains node then found else found.add (g.component outgoing incoming node)

/-- The components of a graph. -/
def findComponents (g : Graph ν) : Found ν :=
  let outgoing := g.outgoing
  let incoming := g.reverse.outgoing
  g.nodes.foldl (g.collect outgoing incoming) ⟨#[], ∅⟩

/-- The edge between the components of two nodes, if they are different. -/
def Found.edge? (found : Found ν) (edge : ν × ν) : Option (Nat × Nat) := do
  let source ← found.place[edge.1]?
  let target ← found.place[edge.2]?
  if source = target then none else some (source, target)

/-- Make every component one node. -/
def condense (g : Graph ν) : Condensation ν :=
  let found := g.findComponents
  { components := found.components
    graph :=
      { nodes := List.range found.components.size
        edges := (g.edges.filterMap found.edge?).eraseDups } }

end Graph

end HornOntology
