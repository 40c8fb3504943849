import HornOntology.Entity

set_option autoImplicit false

/-! # Class expressions and axioms

Axioms relate class expressions. A class expression is a named class, an intersection, or the
class of everything that has a given value for a property. Expressions are compared by their
form. -/

namespace HornOntology

/-! ## Class expressions -/

/-- A way to describe a class. -/
inductive ClassExpr where
  | named (cls : EntityId)
  | intersection (parts : List ClassExpr)
  /-- Everything that the property links to the value. -/
  | hasValue (property value : EntityId)

namespace ClassExpr

mutual

/-- Equality of expressions is decided part by part. -/
def decEq : (a b : ClassExpr) → Decidable (a = b)
  | named a, named b =>
    if h : a = b then isTrue (h ▸ rfl) else isFalse fun e => h (named.inj e)
  | intersection as, intersection bs =>
    match decEqList as bs with
    | isTrue h => isTrue (h ▸ rfl)
    | isFalse h => isFalse fun e => h (intersection.inj e)
  | hasValue p v, hasValue q w =>
    if h : p = q ∧ v = w then isTrue (h.1 ▸ h.2 ▸ rfl)
    else isFalse fun e => h (hasValue.inj e)
  | named _, intersection _ => isFalse nofun
  | named _, hasValue _ _ => isFalse nofun
  | intersection _, named _ => isFalse nofun
  | intersection _, hasValue _ _ => isFalse nofun
  | hasValue _ _, named _ => isFalse nofun
  | hasValue _ _, intersection _ => isFalse nofun

/-- Equality of lists of expressions is decided element by element. -/
def decEqList : (as bs : List ClassExpr) → Decidable (as = bs)
  | [], [] => isTrue rfl
  | [], _ :: _ => isFalse nofun
  | _ :: _, [] => isFalse nofun
  | a :: as, b :: bs =>
    match decEq a b with
    | isFalse h => isFalse fun e => h (List.cons.inj e).1
    | isTrue h =>
      match decEqList as bs with
      | isFalse h' => isFalse fun e => h' (List.cons.inj e).2
      | isTrue h' => isTrue (h ▸ h' ▸ rfl)

end

instance : DecidableEq ClassExpr := decEq

mutual

/-- A hash of an expression. -/
def hashCode : ClassExpr → UInt64
  | named cls => mixHash 1 (hash cls)
  | intersection parts => mixHash 2 (hashCodes parts)
  | hasValue property value => mixHash 3 (mixHash (hash property) (hash value))

/-- A hash of a list of expressions. -/
def hashCodes : List ClassExpr → UInt64
  | [] => 7
  | part :: rest => mixHash (hashCode part) (hashCodes rest)

end

instance : Hashable ClassExpr := ⟨hashCode⟩

/-- The class that an expression names, if it is a name. -/
def named? : ClassExpr → Option EntityId
  | named cls => some cls
  | intersection _ | hasValue _ _ => none

end ClassExpr

/-! ## Axioms -/

/-- A statement about classes. -/
inductive Axiom where
  /-- The entity exists. -/
  | declaration (entity : EntityId)
  | subClassOf (sub sup : ClassExpr)
  | equivalentClasses (classes : List ClassExpr)
  | disjointClasses (classes : List EntityId)
deriving DecidableEq

/-- The pairs of elements of a list, each element with every later one. -/
def pairs {α : Type} : List α → List (α × α)
  | [] => []
  | a :: rest => rest.map (fun b => (a, b)) ++ pairs rest

/-- The pairs of classes that an axiom makes disjoint. -/
def Axiom.disjointPairs : Axiom → List (EntityId × EntityId)
  | disjointClasses classes => pairs classes
  | declaration _ | subClassOf _ _ | equivalentClasses _ => []

/-- The pairs of classes that some axiom makes disjoint, in the order of the axioms. -/
def disjointPairs (axioms : List Axiom) : List (EntityId × EntityId) :=
  axioms.flatMap Axiom.disjointPairs

end HornOntology
