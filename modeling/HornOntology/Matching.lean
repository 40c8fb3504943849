import HornOntology.Builtin
import HornOntology.FactStore
import HornOntology.Rule

set_option autoImplicit false

/-! # Matching bodies against facts

A body is matched atom by atom, from left to right: each class or property atom is matched with
every stored fact that agrees with the binding so far, in the order of the store, and each builtin
lets a binding pass or drops it. A builtin that cannot be evaluated drops it too. -/

namespace HornOntology

/-- The fact that a relational atom states under a binding, if the binding covers it. -/
def Atom.ground (binding : Binding) : Atom EntityId → Option Fact
  | .member cls arg => return .member (← binding.resolve? arg) cls
  | .link property subject object =>
    return .link property (← binding.resolve? subject) (← binding.resolve? object)
  | .builtin _ _ => none

/-- Extend a binding so that an atom states the fact. -/
def Atom.unify (binding : Binding) (atom : Atom EntityId) (fact : Fact) : Option Binding :=
  match atom, fact with
  | .member _ arg, .member individual _ => binding.unify arg individual
  | .link _ subject object, .link _ s o => do
    let binding ← binding.unify subject s
    binding.unify object o
  | _, _ => none

/-- The facts and names that bodies are matched against. -/
structure Matcher where
  store : FactStore
  registry : Registry

namespace Matcher

variable (m : Matcher)

/-- The extensions of a binding under which a builtin holds: the binding itself, or none. -/
def filter (op : Builtin) (args : List (Term EntityId)) (binding : Binding) : List Binding :=
  match op.evaluate args binding m.registry with
  | .ok true => [binding]
  | .ok false | .error _ => []

/-- The extensions of a binding that match one atom. -/
def matchAtom (atom : Atom EntityId) (binding : Binding) : List Binding :=
  match atom with
  | .builtin op args => m.filter op args binding
  | .member cls arg =>
    (m.store.select (.member (some cls) (binding.resolve? arg))).filterMap (atom.unify binding)
  | .link property subject object =>
    (m.store.select (.link (some property) (binding.resolve? subject)
      (binding.resolve? object))).filterMap (atom.unify binding)

/-- The extensions of a binding that match all atoms of a body. -/
def solve : List (Atom EntityId) → Binding → List Binding
  | [], binding => [binding]
  | atom :: rest, binding => (m.matchAtom atom binding).flatMap (solve rest)

/-- What a rule concludes: for each match of its body, each atom of its head. -/
def conclusions (rule : Rule EntityId) : List Fact :=
  (m.solve rule.plan .empty).flatMap fun binding => rule.head.filterMap (Atom.ground binding)

end Matcher

end HornOntology
