import HornOntology.Answer
import HornOntology.Classification
import HornOntology.Config
import HornOntology.Document
import HornOntology.RuleText

set_option autoImplicit false

/-! # Knowledge bases

A knowledge base brings the parts together: a registry, axioms, facts, rules and queries. Rules
and queries are known by their names; one that is added under a name in use takes the place of the
old one. A document is loaded item by item, in a fixed order; if an item is refused, the items
before it stay. -/

namespace HornOntology

/-- Everything that is known. -/
structure KnowledgeBase where
  config : Config
  registry : Registry
  axioms : Array Axiom
  store : FactStore
  rules : List (Rule EntityId)
  queries : List (Query EntityId)

/-- What a document added. -/
structure LoadSummary where
  axioms : Nat
  facts : Nat
  rules : Nat
  queries : Nat
deriving DecidableEq

/-- Nothing was added. -/
def LoadSummary.zero : LoadSummary := ⟨0, 0, 0, 0⟩

instance : Add LoadSummary :=
  ⟨fun a b => ⟨a.axioms + b.axioms, a.facts + b.facts, a.rules + b.rules, a.queries + b.queries⟩⟩

/-! ## Items of a document -/

/-- One thing that a document adds. -/
inductive DocumentItem where
  | declaration (name : String) (kind : EntityKind)
  | axiomatic (entry : AxiomEntry)
  | fact (entry : FactEntry)
  | rule (entry : TextEntry)
  | query (entry : TextEntry)

/-- The declared names with their kinds, in the order in which they are declared. -/
def Declarations.items (d : Declarations) : List DocumentItem :=
  d.classes.map (.declaration · .cls) ++ d.objectProperties.map (.declaration · .objectProperty) ++
    d.dataProperties.map (.declaration · .dataProperty) ++
    d.individuals.map (.declaration · .individual)

/-- The items of a document, in the order in which they are added. -/
def Document.items (d : Document) : List DocumentItem :=
  d.declarations.items ++ d.axioms.map .axiomatic ++ d.facts.map .fact ++ d.rules.map .rule ++
    d.queries.map .query

/-! ## From names to entities -/

namespace RegistryM

/-- The property with a name: one that is registered, of either kind, or a new object property. -/
def property (name : String) : RegistryM EntityId := do
  let registry ← get
  match registry.ids[name]? with
  | some id =>
    if ((registry.kind? id).map EntityKind.isProperty).getD false then return id
    else intern name .objectProperty
  | none => intern name .objectProperty

mutual

/-- The class expression that an entry writes. -/
def classExpr : ClassEntry → RegistryM ClassExpr
  | .named name => return .named (← intern name .cls)
  | .intersection parts => return .intersection (← classExprs parts)
  | .hasValue property value => do
    let property ← RegistryM.property property
    let value ← intern value .individual
    return .hasValue property value

/-- The class expressions that entries write, from left to right. -/
def classExprs : List ClassEntry → RegistryM (List ClassExpr)
  | [] => return []
  | part :: rest => do
    let part ← classExpr part
    let rest ← classExprs rest
    return part :: rest

end

/-- The axiom that an entry writes. -/
def ofAxiomEntry : AxiomEntry → RegistryM Axiom
  | .subClassOf sub sup => do
    let sub ← classExpr sub
    let sup ← classExpr sup
    return .subClassOf sub sup
  | .equivalentClasses classes => return .equivalentClasses (← classExprs classes)
  | .disjointClasses classes => return .disjointClasses (← classes.mapM (intern · .cls))

/-- The fact that an entry writes. -/
def ofFactEntry : FactEntry → RegistryM Fact
  | .member individual cls => do
    let individual ← intern individual .individual
    let cls ← intern cls .cls
    return .member individual cls
  | .link subject property object => do
    let property ← RegistryM.property property
    let subject ← intern subject .individual
    let object ← intern object .individual
    return .link property subject object

end RegistryM

/-! ## Building a knowledge base -/

/-- Computations that change a knowledge base and may be refused. What was changed before a
    refusal stays. -/
abbrev KnowledgeM := ExceptT Error (StateM KnowledgeBase)

/-- Put an element in the place of the one with the same name, or else at the end. -/
def replaceOrAppend {α : Type} (name : α → String) (a : α) : List α → List α
  | [] => [a]
  | b :: rest => if name b = name a then a :: rest else b :: replaceOrAppend name a rest

namespace KnowledgeBase

/-- A knowledge base that knows nothing. -/
def create (config : Config) : Except EngineError KnowledgeBase := do
  config.validate
  return ⟨config, .empty, #[], .empty, [], []⟩

variable (kb : KnowledgeBase)

/-- Add an axiom. -/
def addAxiom (a : Axiom) : KnowledgeBase := { kb with axioms := kb.axioms.push a }

/-- Add a rule, in place of one with its name. -/
def addRule (rule : Rule EntityId) : KnowledgeBase :=
  { kb with rules := replaceOrAppend Rule.name rule kb.rules }

/-- Add a query, in place of one with its name. -/
def addQuery (query : Query EntityId) : KnowledgeBase :=
  { kb with queries := replaceOrAppend Query.name query kb.queries }

end KnowledgeBase

namespace KnowledgeM

/-- A computation on the registry. -/
def onRegistry {α : Type} (act : RegistryM α) : KnowledgeM α :=
  ExceptT.mk fun kb =>
    let (result, registry) := act.run kb.registry
    (result.mapError .registry, { kb with registry })

/-- Register a name, and state that its entity exists. -/
def declare (name : String) (kind : EntityKind) : KnowledgeM EntityId := do
  let id ← onRegistry (RegistryM.intern name kind)
  modify (·.addAxiom (.declaration id))
  return id

/-- Add a fact; the result tells whether it is new. -/
def assert (fact : Fact) : KnowledgeM Bool := do
  let (isNew, store) := (← get).store.learn fact
  modify ({ · with store })
  return isNew

/-- Read a rule and add it. -/
def addRuleText (name text : String) : KnowledgeM Unit :=
  ExceptT.mk fun kb =>
    match Rule.parse kb.registry name text with
    | (.error e, registry) => (.error e, { kb with registry })
    | (.ok rule, registry) => (.ok (), { kb with registry }.addRule rule)

/-- Read a query and add it. -/
def addQueryText (name text : String) : KnowledgeM Unit :=
  ExceptT.mk fun kb =>
    match Query.parse kb.registry name text with
    | (.error e, registry) => (.error e, { kb with registry })
    | (.ok query, registry) => (.ok (), { kb with registry }.addQuery query)

/-- Add one item of a document, and say what that added. -/
def addItem : DocumentItem → KnowledgeM LoadSummary
  | .declaration name kind => do
    let _ ← declare name kind
    return { LoadSummary.zero with axioms := 1 }
  | .axiomatic entry => do
    let a ← onRegistry (RegistryM.ofAxiomEntry entry)
    modify (·.addAxiom a)
    return { LoadSummary.zero with axioms := 1 }
  | .fact entry => do
    let isNew ← assert (← onRegistry (RegistryM.ofFactEntry entry))
    return { LoadSummary.zero with facts := if isNew then 1 else 0 }
  | .rule entry => do
    addRuleText entry.name entry.text
    return { LoadSummary.zero with rules := 1 }
  | .query entry => do
    addQueryText entry.name entry.text
    return { LoadSummary.zero with queries := 1 }

/-- Add items one after the other. -/
def addItems (items : List DocumentItem) : KnowledgeM LoadSummary :=
  items.foldlM (fun summary item => return summary + (← addItem item)) LoadSummary.zero

/-- Add everything that a document holds. -/
def load (document : Document) : KnowledgeM LoadSummary := addItems document.items

end KnowledgeM

/-! ## Reasoning and asking -/

/-- How much a knowledge base holds. -/
structure KnowledgeInfo where
  classes : Nat
  objectProperties : Nat
  dataProperties : Nat
  individuals : Nat
  axioms : Nat
  facts : Nat
  rules : Nat
  queries : Nat
deriving DecidableEq

/-- The counts as text, one line each. -/
def KnowledgeInfo.display (i : KnowledgeInfo) : String :=
  "ontorule engine info\n" ++
  s!"  classes:           {i.classes}\n" ++
  s!"  object properties: {i.objectProperties}\n" ++
  s!"  data properties:   {i.dataProperties}\n" ++
  s!"  individuals:       {i.individuals}\n" ++
  s!"  axioms:            {i.axioms}\n" ++
  s!"  facts:             {i.facts}\n" ++
  s!"  rules:             {i.rules}\n" ++
  s!"  queries:           {i.queries}\n"

namespace KnowledgeBase

variable (kb : KnowledgeBase)

/-- The axioms as a list, oldest first. -/
def axiomList : List Axiom := kb.axioms.toList

/-- Check the axioms and facts. -/
def classify : Classification := Classification.classify kb.registry kb.axiomList kb.store

/-- The class hierarchy. -/
def hierarchy : Hierarchy := .build kb.registry kb.axiomList

/-- The rules that saturation applies: those that were added, and those of the hierarchy if it
    takes part. -/
def activeRules : List (Rule EntityId) :=
  if kb.config.materializeHierarchy then kb.rules ++ kb.hierarchy.rules else kb.rules

/-- Add all facts that follow from the rules. -/
def saturate : Saturation × KnowledgeBase :=
  let (account, store) :=
    HornOntology.saturate kb.config.strategy kb.registry kb.activeRules kb.store
  (account, { kb with store })

/-- What bodies are matched against. -/
def matcher : Matcher := ⟨kb.store, kb.registry⟩

/-- Answer a query. -/
def run (query : Query EntityId) : Answer := kb.matcher.answer query

/-- Answer the query with a name. -/
def runNamed (name : String) : Except EngineError Answer :=
  match kb.queries.find? fun q => q.name = name with
  | some query => .ok (kb.run query)
  | none => .error (.queryNotFound name)

/-- Answer all queries, in order. -/
def runAll : List Answer := kb.queries.map kb.run

/-- How much there is of everything. -/
def info : KnowledgeInfo where
  classes := (kb.registry.ofKind .cls).length
  objectProperties := (kb.registry.ofKind .objectProperty).length
  dataProperties := (kb.registry.ofKind .dataProperty).length
  individuals := (kb.registry.ofKind .individual).length
  axioms := kb.axioms.size
  facts := kb.store.size
  rules := kb.rules.length
  queries := kb.queries.length

/-- The knowledge base as it is shown to a developer. -/
def summary : String :=
  s!"Engine \x7b config: {kb.config.summary}, registry: {kb.registry.summary}, " ++
    s!"facts: {kb.store.size}, rules: {kb.rules.length} \x7d"

end KnowledgeBase

end HornOntology
