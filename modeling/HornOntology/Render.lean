import HornOntology.Axiom
import HornOntology.Registry
import HornOntology.Rule

set_option autoImplicit false

/-! # Rendering

The text of entities, facts, rules, queries and axioms. An entity is written by its local name
where the registry resolves that name back to it, and by its qualified name elsewhere. -/

namespace HornOntology

namespace Registry

variable (registry : Registry)

/-- The shortest of an entity's two names that still means it. -/
def renderEntity (id : EntityId) : String :=
  let name := registry.name id
  let short := localName name
  match registry.resolve short with
  | .ok found => if found = id then short else name
  | .error _ => name

/-- A predicate with its arguments. -/
def application (name : String) (args : List String) : String :=
  name ++ "(" ++ ", ".intercalate args ++ ")"

/-- The text of a fact. -/
def renderFact (fact : Fact) : String :=
  application (registry.renderEntity fact.predicate) (fact.arguments.map registry.renderEntity)

/-- The text of a term. -/
def renderTerm : Term EntityId → String
  | .const id => registry.renderEntity id
  | .var v => v.display

/-- The text of an atom. -/
def renderAtom (atom : Atom EntityId) : String :=
  let name := match atom with
    | .member cls _ => registry.renderEntity cls
    | .link property _ _ => registry.renderEntity property
    | .builtin op _ => op.name
  application name (atom.terms.map registry.renderTerm)

/-- The text of a conjunction of atoms. -/
def renderConjunction (atoms : List (Atom EntityId)) : String :=
  " ^ ".intercalate (atoms.map registry.renderAtom)

/-- The text of a rule. -/
def renderRule (rule : Rule EntityId) : String :=
  registry.renderConjunction rule.body ++ " -> " ++ registry.renderConjunction rule.head

/-- The text of a query. -/
def renderQuery (query : Query EntityId) : String :=
  let select := if query.distinct then "sqwrl:selectDistinct" else "sqwrl:select"
  registry.renderConjunction query.body ++ " -> " ++
    application select (query.projection.map Variable.display)

mutual

/-- The text of a class expression. -/
def renderClassExpr : ClassExpr → String
  | .named cls => registry.renderEntity cls
  | .intersection parts => " ⊓ ".intercalate (renderParts parts)
  | .hasValue property value =>
    "∃" ++ registry.renderEntity property ++ ".\x7b" ++ registry.renderEntity value ++ "\x7d"

/-- The texts of the parts of an intersection; a part that is itself one stands in
    parentheses. -/
def renderParts : List ClassExpr → List String
  | [] => []
  | part :: rest =>
    let text := renderClassExpr part
    (match part with
      | .intersection _ => "(" ++ text ++ ")"
      | .named _ | .hasValue _ _ => text) :: renderParts rest

end

/-- The text of an axiom. -/
def renderAxiom : Axiom → String
  | .declaration id =>
    let kind := ((registry.kind? id).map EntityKind.display).getD "Entity"
    "Declaration(" ++ kind ++ " " ++ registry.renderEntity id ++ ")"
  | .subClassOf sub sup => registry.renderClassExpr sub ++ " ⊑ " ++ registry.renderClassExpr sup
  | .equivalentClasses classes => " ≡ ".intercalate (classes.map registry.renderClassExpr)
  | .disjointClasses classes => application "Disjoint" (classes.map registry.renderEntity)

end Registry

end HornOntology
