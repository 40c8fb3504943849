import HornOntology.Atom
import HornOntology.Diagnostic

set_option autoImplicit false

/-! # Rules and queries

A rule concludes its head from its body; a query selects variables of its body. Both are made
from parts by a check: a body has at least one atom and compares two values in each builtin, a
head holds no builtins, and every variable that is concluded or selected is bound by a class or
property atom of the body.

A body is matched in the order of its `plan`, in which each builtin waits until its variables are
bound. -/

namespace HornOntology

/-- Why parts do not make a rule or a query. -/
inductive RuleError where
  /-- The head uses a variable that the body does not bind. -/
  | unboundHead (rule : String) (v : Variable)
  /-- The query selects a variable that the body does not bind. -/
  | unboundSelection (query : String) (v : Variable)
  | emptyBody (name : String)
  | builtinArity (name : String) (op : Builtin) (actual : Nat)
  | builtinInHead (rule : String) (op : Builtin)
deriving DecidableEq

/-- The texts for an error of construction. -/
def RuleError.diagnostic : RuleError → Diagnostic
  | .unboundHead rule v =>
    { message := s!"malformed rule '{rule}': head variable {v.display} does not occur in the body"
      code := "ontorule::rule::malformed_rule"
      help := "Every variable used in a rule head must be bound by a class or property atom in " ++
        "the body." }
  | .unboundSelection query v =>
    { message := s!"malformed query '{query}': projected variable {v.display} does not occur " ++
        "in the body"
      code := "ontorule::rule::malformed_query"
      help := "Only variables bound by a class or property atom in the body can be selected." }
  | .emptyBody name =>
    { message := s!"'{name}' has an empty body"
      code := "ontorule::rule::empty_body"
      help := "Rules and queries need at least one body atom to match against." }
  | .builtinArity name op actual =>
    { message := s!"builtin {op.name} in '{name}' takes {op.arity} arguments, got {actual}"
      code := "ontorule::rule::builtin_arity"
      help := "Comparison builtins are binary: swrlb:lessThan(?a, ?b)." }
  | .builtinInHead rule op =>
    { message := s!"builtin {op.name} cannot appear in the head of rule '{rule}'"
      code := "ontorule::rule::builtin_in_head"
      help := "Builtins are filters; rule heads may only contain class and property atoms." }

variable {κ lam : Type}

/-! ## Bodies -/

/-- The variables that the class and property atoms of a body bind. -/
def boundVariables (body : List (Atom κ)) : List Variable :=
  (body.filter Atom.isRelational).flatMap Atom.vars

/-- The classes and properties of a body, as written. -/
def predicates (body : List (Atom κ)) : List EntityId := body.filterMap Atom.predicate?

/-- The number of arguments of a builtin that has the wrong number of them. -/
def Atom.wrongArity? : Atom κ → Option (Builtin × Nat)
  | .builtin op args => if args.length = op.arity then none else some (op, args.length)
  | .member _ _ | .link _ _ _ => none

/-- A body needs an atom, and two arguments in each builtin. -/
def checkBody (name : String) (body : List (Atom κ)) : Except RuleError Unit :=
  if body.isEmpty then .error (.emptyBody name)
  else
    match body.findSome? Atom.wrongArity? with
    | some (op, actual) => .error (.builtinArity name op actual)
    | none => .ok ()

/-! ## Plans -/

/-- Whether all variables of an atom are among those bound. -/
def Atom.isReady (bound : List Variable) (atom : Atom κ) : Bool :=
  atom.vars.all bound.contains

/-- The plan for the rest of a body, where `pending` are the builtins that wait for variables
    other than those bound so far. Builtins that can run do so before the next class or property
    atom; those that never can stand at the end. -/
def planFrom (bound : List Variable) (pending : List (Atom κ)) : List (Atom κ) → List (Atom κ)
  | [] => pending.filter (Atom.isReady bound) ++ pending.filter fun a => !a.isReady bound
  | atom :: rest =>
    if atom.isRelational then
      pending.filter (Atom.isReady bound) ++
        atom :: planFrom (bound ++ atom.vars) (pending.filter fun a => !a.isReady bound) rest
    else planFrom bound (pending ++ [atom]) rest

/-- A body in the order in which it is matched. -/
def plan (body : List (Atom κ)) : List (Atom κ) := planFrom [] [] body

/-! ## Rules -/

/-- A named implication. -/
structure Rule (κ : Type) where
  name : String
  body : List (Atom κ)
  head : List (Atom κ)
deriving DecidableEq

namespace Rule

/-- Why an atom cannot be concluded, given the variables that the body binds. -/
def headError? (name : String) (bound : List Variable) (atom : Atom κ) : Option RuleError :=
  match atom with
  | .builtin op _ => some (.builtinInHead name op)
  | atom => (atom.vars.find? fun v => !bound.contains v).map (.unboundHead name)

/-- Make a rule from its parts. An atom that the head repeats is kept once. -/
def ofParts [DecidableEq κ] (name : String) (body head : List (Atom κ)) :
    Except RuleError (Rule κ) := do
  checkBody name body
  let head := head.eraseDups
  match head.findSome? (headError? name (boundVariables body)) with
  | some e => .error e
  | none => .ok { name, body, head }

/-- The body in matching order. -/
def plan (rule : Rule κ) : List (Atom κ) := HornOntology.plan rule.body

/-- The classes and properties that can make the rule fire. -/
def bodyPredicates (rule : Rule κ) : List EntityId := predicates rule.body

/-- The variables of the head, each where it occurs first. -/
def headVariables (rule : Rule κ) : List Variable :=
  (rule.head.flatMap Atom.vars).eraseDups

/-- The constants of the body, and then of the head. -/
def constants (rule : Rule κ) : List κ := (rule.body ++ rule.head).flatMap Atom.constants

/-- Replace every constant by the result of a computation, in the body first. -/
def mapConstM {m : Type → Type} [Monad m] (f : κ → m lam) (rule : Rule κ) : m (Rule lam) := do
  let body ← rule.body.mapM (Atom.mapConstM f)
  let head ← rule.head.mapM (Atom.mapConstM f)
  return { name := rule.name, body, head }

end Rule

/-! ## Queries -/

/-- A named selection. -/
structure Query (κ : Type) where
  name : String
  body : List (Atom κ)
  /-- The selected variables, one for each column. -/
  projection : List Variable
  /-- Whether equal rows are shown once. -/
  distinct : Bool
deriving DecidableEq

namespace Query

/-- Make a query from its parts. -/
def ofParts (name : String) (body : List (Atom κ)) (projection : List Variable)
    (distinct : Bool) : Except RuleError (Query κ) := do
  checkBody name body
  match projection.find? fun v => !(boundVariables body).contains v with
  | some v => .error (.unboundSelection name v)
  | none => .ok { name, body, projection, distinct }

/-- The body in matching order. -/
def plan (query : Query κ) : List (Atom κ) := HornOntology.plan query.body

/-- The constants of the body. -/
def constants (query : Query κ) : List κ := query.body.flatMap Atom.constants

/-- Replace every constant by the result of a computation. -/
def mapConstM {m : Type → Type} [Monad m] (f : κ → m lam) (query : Query κ) : m (Query lam) := do
  let body ← query.body.mapM (Atom.mapConstM f)
  return { name := query.name, body, projection := query.projection, distinct := query.distinct }

end Query

end HornOntology
