import HornOntology.Fact

set_option autoImplicit false

/-! # Terms and atoms

Rules and queries are made of atoms: a class atom `C(t)`, a property atom `p(s, o)`, or a builtin
comparison. Their arguments are terms. Constants are drawn from a type `κ`: entities in a finished
rule, and entities or still unregistered names while a rule text is being read. -/

namespace HornOntology

/-! ## Variables and terms -/

/-- A variable, written `?name`. -/
structure Variable where
  name : String
deriving DecidableEq, Hashable

/-- The variable as it is written. -/
def Variable.display (v : Variable) : String := "?" ++ v.name

/-- An argument of an atom. -/
inductive Term (κ : Type) where
  | const (value : κ)
  | var (v : Variable)
deriving DecidableEq

namespace Term

variable {κ lam : Type}

/-- The variable that a term is, if it is one. -/
def var? : Term κ → Option Variable
  | const _ => none
  | var v => some v

/-- The constant that a term is, if it is one. -/
def const? : Term κ → Option κ
  | const k => some k
  | var _ => none

/-- Replace a constant by the result of a computation. -/
def mapConstM {m : Type → Type} [Monad m] (f : κ → m lam) : Term κ → m (Term lam)
  | const k => return const (← f k)
  | var v => return var v

end Term

/-! ## Builtins -/

/-- The comparisons that a body may use as filters. -/
inductive Builtin where
  | equal
  | notEqual
  | lessThan
  | lessThanOrEqual
  | greaterThan
  | greaterThanOrEqual
deriving DecidableEq

namespace Builtin

/-- All builtins. -/
def all : List Builtin :=
  [equal, notEqual, lessThan, lessThanOrEqual, greaterThan, greaterThanOrEqual]

/-- The name without its namespace. -/
def localName : Builtin → String
  | equal => "equal"
  | notEqual => "notEqual"
  | lessThan => "lessThan"
  | lessThanOrEqual => "lessThanOrEqual"
  | greaterThan => "greaterThan"
  | greaterThanOrEqual => "greaterThanOrEqual"

/-- The namespace of the names of builtins. -/
def nameSpace : String := "swrlb:"

/-- The full name. -/
def name (op : Builtin) : String := nameSpace ++ op.localName

/-- Every builtin compares two values. -/
def arity : Builtin → Nat := fun _ => 2

/-- The builtin with a name, which is written with or without the namespace. -/
def ofName? (name : String) : Option Builtin :=
  all.find? fun op => op.name = name || op.localName = name

end Builtin

/-! ## Atoms -/

/-- One condition of a body, or one conclusion of a head. -/
inductive Atom (κ : Type) where
  /-- The argument belongs to the class. -/
  | member (cls : EntityId) (arg : Term κ)
  /-- The property links the subject to the object. -/
  | link (property : EntityId) (subject object : Term κ)
  /-- The comparison holds of the arguments. -/
  | builtin (op : Builtin) (args : List (Term κ))
deriving DecidableEq

namespace Atom

variable {κ lam : Type}

/-- Whether the atom is matched against facts, as class and property atoms are. -/
def isRelational : Atom κ → Bool
  | member _ _ | link _ _ _ => true
  | builtin _ _ => false

/-- The class or property of a relational atom. -/
def predicate? : Atom κ → Option EntityId
  | member cls _ => some cls
  | link property _ _ => some property
  | builtin _ _ => none

/-- The arguments, as written. -/
def terms : Atom κ → List (Term κ)
  | member _ arg => [arg]
  | link _ subject object => [subject, object]
  | builtin _ args => args

/-- The variables, as written, with repetitions. -/
def vars (atom : Atom κ) : List Variable := atom.terms.filterMap Term.var?

/-- The constants, as written, with repetitions. -/
def constants (atom : Atom κ) : List κ := atom.terms.filterMap Term.const?

/-- Replace every constant by the result of a computation, from left to right. -/
def mapConstM {m : Type → Type} [Monad m] (f : κ → m lam) : Atom κ → m (Atom lam)
  | member cls arg => return member cls (← arg.mapConstM f)
  | link property subject object => do
    let subject ← subject.mapConstM f
    let object ← object.mapConstM f
    return link property subject object
  | builtin op args => return builtin op (← args.mapM (Term.mapConstM f))

end Atom

end HornOntology
