import HornOntology.KnowledgeBase
import HornOntology.Render

set_option autoImplicit false

/-! # Reports

What the commands print, as lines. -/

namespace HornOntology.CommandLine.Report

/-- The verdict on an ontology, its unsatisfiable classes, and its clashes. -/
def classification (kb : KnowledgeBase) (c : Classification) : List String :=
  let name := kb.registry.renderEntity
  let verdict := if c.consistent then "Consistent." else "Inconsistent."
  let unsatisfiable :=
    if c.unsatisfiable.isEmpty then []
    else ["Unsatisfiable classes: " ++ ", ".intercalate (c.unsatisfiable.map name)]
  let clashes := c.clashes.map fun clash =>
    s!"  {name clash.individual} is both {name clash.disjoint.1} and " ++
      s!"{name clash.disjoint.2}, which are disjoint"
  verdict :: unsatisfiable ++ clashes

/-- The classes that lie below others, with those. -/
def hierarchy (kb : KnowledgeBase) (h : Hierarchy) : List String :=
  let name := kb.registry.renderEntity
  let lines := (kb.registry.ofKind .cls).filterMap fun cls =>
    let supers := h.superclasses cls
    if supers.isEmpty then none
    else some (s!"  {name cls} ⊑ " ++ ", ".intercalate (supers.map name))
  ["", "Hierarchy:"] ++ lines

/-- How a run of saturation went, and what each rule added. -/
def saturation (s : Saturation) : List String :=
  let ending := if s.reachedFixpoint then "fixpoint reached" else "pass limit reached"
  s!"Derived {s.applied} facts in {s.passes} passes ({ending})." ::
    s.stats.map fun (rule, n) => s!"  {rule}: {n}"

/-- The derived facts with their passes and rules. -/
def derivations (kb : KnowledgeBase) (s : Saturation) : List String :=
  ["", "Derived facts:"] ++ s.derived.toList.map fun d =>
    s!"  [pass {d.pass}] {kb.registry.renderFact d.fact}  <- {d.rule}"

/-- An answer as a table. -/
def answer (kb : KnowledgeBase) (a : Answer) : List String :=
  let row (cells : List String) := "  " ++ "\t".intercalate cells
  s!"{a.name} ({a.size} rows)" :: row (a.columns.map Variable.display) ::
    a.rows.map fun ids => row (ids.map kb.registry.renderEntity)

/-- The axioms, rules and queries, one in a line. -/
def contents (kb : KnowledgeBase) : List String :=
  "Axioms:" :: kb.axiomList.map (fun a => "  " ++ kb.registry.renderAxiom a) ++
  "Rules:" :: kb.rules.map (fun r => s!"  {r.name}: {kb.registry.renderRule r}") ++
  "Queries:" :: kb.queries.map (fun q => s!"  {q.name}: {kb.registry.renderQuery q}")

end HornOntology.CommandLine.Report
