import HornOntology.Binding
import HornOntology.Diagnostic
import HornOntology.Number.Double
import HornOntology.Registry

set_option autoImplicit false

/-! # Evaluating builtins

Equality of entities is equality of identifiers. The order of entities is that of their local
names: by value if both are finite numbers, and by code points otherwise. -/

namespace HornOntology

/-- Why a builtin could not be evaluated. -/
inductive MatchError where
  /-- The variable has no entity. -/
  | unboundArgument (op : Builtin) (v : Variable)
deriving DecidableEq

/-- The texts for an error of evaluation. -/
def MatchError.diagnostic : MatchError → Diagnostic
  | .unboundArgument op v =>
    { message := s!"builtin {op.name} argument {v.display} is unbound"
      code := "ontorule::matching::unbound_builtin_argument"
      help := "Place the builtin after the atoms that bind its arguments." }

namespace Builtin

/-- The finite number that a text writes; the words for other numbers are names. -/
def finite? (text : String) : Option Double := (Double.parse? text).filter Double.isFinite

/-- The order of two names, if they have one. -/
def compareNames (a b : String) : Option Ordering :=
  let a := HornOntology.localName a
  let b := HornOntology.localName b
  match finite? a, finite? b with
  | some x, some y => x.compare? y
  | _, _ => some (compare a b)

/-- Whether a comparison allows an order of its arguments; equality is not a matter of order. -/
def allows : Builtin → Ordering → Bool
  | lessThan, o => o.isLT
  | lessThanOrEqual, o => o.isLE
  | greaterThan, o => o.isGT
  | greaterThanOrEqual, o => o.isGE
  | equal, _ | notEqual, _ => false

/-- Whether a comparison holds of two entities; without an order it does not. -/
def holds (op : Builtin) (registry : Registry) (left right : EntityId) : Bool :=
  match op with
  | equal => left = right
  | notEqual => left ≠ right
  | op => (compareNames (registry.name left) (registry.name right)).any op.allows

/-- The entities of the arguments, from left to right. -/
def values (op : Builtin) (args : List (Term EntityId)) (binding : Binding) :
    Except MatchError (List EntityId) :=
  args.mapM fun
    | .const id => .ok id
    | .var v =>
      match binding.get? v with
      | some id => .ok id
      | none => .error (.unboundArgument op v)

/-- Evaluate a comparison under a binding. Of any other number of arguments than two it is
    false. -/
def evaluate (op : Builtin) (args : List (Term EntityId)) (binding : Binding)
    (registry : Registry) : Except MatchError Bool := do
  match ← op.values args binding with
  | [left, right] => return op.holds registry left right
  | _ => return false

end Builtin

end HornOntology
