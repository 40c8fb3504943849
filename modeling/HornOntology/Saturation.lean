import HornOntology.Matching

set_option autoImplicit false

/-! # Saturation

Saturation applies rules to a store, pass after pass, until a pass adds nothing. The strategy
decides two things: whether a later pass skips the rules whose body mentions no predicate that
gained a fact in the pass before, and whether the rules of a pass all look at the store as it was
when the pass began or each at what the rules before it have added.

Every fact that is added is recorded with its rule and its pass. It is counted as it is recorded,
for its rule and for the pass, and the count of a pass goes into the total when the pass is over. A
run is bounded by a number of passes: the given limit, or else one that cannot be reached without a
fixpoint (`passBound`). -/

namespace HornOntology

/-- How rules are applied. -/
structure Strategy where
  /-- Skip the rules that the last pass cannot have affected. -/
  semiNaive : Bool
  /-- Let the rules of a pass look at the store as it was before the pass. -/
  parallel : Bool
  /-- The largest number of passes, if there is one. -/
  maxPasses : Option Nat
deriving DecidableEq

/-- A fact that a rule added. -/
structure Derivation where
  fact : Fact
  rule : String
  pass : Nat
deriving DecidableEq

/-- The account of a run. -/
structure Saturation where
  /-- How many passes were made. -/
  passes : Nat
  /-- Whether the last pass added nothing. -/
  reachedFixpoint : Bool
  /-- The added facts, in order. -/
  derived : Array Derivation
  /-- How many facts were added. -/
  applied : Nat
  /-- How many facts each rule added, by the name of the rule. -/
  stats : List (String × Nat)

/-- Count one more occurrence of a name in a list of counts sorted by name. -/
def countName (name : String) : List (String × Nat) → List (String × Nat)
  | [] => [(name, 1)]
  | (other, n) :: rest =>
    if name = other then (other, n + 1) :: rest
    else if name < other then (name, 1) :: (other, n) :: rest
    else (other, n) :: countName name rest

/-! ## One pass -/

/-- The state of a run in the middle of a pass. -/
structure Progress where
  store : FactStore
  derived : Array Derivation
  stats : List (String × Nat)
  /-- How many facts the passes that are over have added. -/
  applied : Nat
  /-- How many facts this pass has added. -/
  added : Nat
  /-- The predicates that gained a fact in this pass. -/
  touched : Std.HashSet EntityId

namespace Progress

/-- Nothing is added yet. -/
def start (store : FactStore) : Progress := ⟨store, #[], [], 0, 0, ∅⟩

/-- Add a fact that a rule concluded, and record it if it is new. -/
def record (rule : String) (pass : Nat) (p : Progress) (fact : Fact) : Progress :=
  if p.store.contains fact then p
  else
    { p with
      store := p.store.assert fact
      derived := p.derived.push ⟨fact, rule, pass⟩
      stats := countName rule p.stats
      added := p.added + 1
      touched := p.touched.insert fact.predicate }

/-- Apply one rule. It looks at the given store, or at the current one. -/
def apply (registry : Registry) (pass : Nat) (snapshot : Option FactStore) (p : Progress)
    (rule : Rule EntityId) : Progress :=
  let matcher : Matcher := ⟨snapshot.getD p.store, registry⟩
  (matcher.conclusions rule).foldl (record rule.name pass) p

/-- Apply rules one after the other. -/
def applyAll (registry : Registry) (pass : Nat) (parallel : Bool) (rules : List (Rule EntityId))
    (p : Progress) : Progress :=
  let snapshot := if parallel then some p.store else none
  rules.foldl (apply registry pass snapshot) p

/-- A pass begins with nothing added to it. -/
def beginPass (p : Progress) : Progress := { p with added := 0, touched := ∅ }

/-- When a pass is over, what it added is added to the total. -/
def endPass (p : Progress) : Progress := { p with applied := p.applied + p.added }

/-- Make one pass over rules. -/
def makePass (registry : Registry) (pass : Nat) (parallel : Bool) (rules : List (Rule EntityId))
    (p : Progress) : Progress :=
  (p.beginPass.applyAll registry pass parallel rules).endPass

/-- The account of a run that is left here. -/
def account (p : Progress) (passes : Nat) (reachedFixpoint : Bool) : Saturation :=
  ⟨passes, reachedFixpoint, p.derived, p.applied, p.stats⟩

end Progress

/-! ## The loop -/

/-- Whether a rule may conclude something new, given the predicates that gained facts; at first
    every rule may. -/
def isActive (changed : Option (Std.HashSet EntityId)) (rule : Rule EntityId) : Bool :=
  match changed with
  | none => true
  | some predicates => rule.bodyPredicates.any predicates.contains

/-- Make at most `fuel` passes after the first `pass`. -/
def saturateFrom (strategy : Strategy) (registry : Registry) (rules : List (Rule EntityId)) :
    (fuel : Nat) → (pass : Nat) → (changed : Option (Std.HashSet EntityId)) → Progress →
    Saturation × FactStore
  | 0, pass, _, p => (p.account pass false, p.store)
  | fuel + 1, pass, changed, p =>
    let next := p.makePass registry (pass + 1) strategy.parallel (rules.filter (isActive changed))
    if next.added = 0 then (next.account (pass + 1) true, next.store)
    else
      let changed := if strategy.semiNaive then some next.touched else none
      saturateFrom strategy registry rules fuel (pass + 1) changed next

/-- A number of passes within which every run ends: each pass but the last adds a fact, whose
    predicate is that of a head atom and whose arguments stand in a stored fact or in a head. -/
def passBound (rules : List (Rule EntityId)) (store : FactStore) : Nat :=
  let heads := rules.flatMap Rule.head
  let arguments := 2 * store.size + (heads.flatMap Atom.terms).length
  heads.length * (arguments + arguments * arguments) + 1

/-- Apply rules to a store until nothing new follows, or the limit of passes is reached. -/
def saturate (strategy : Strategy) (registry : Registry) (rules : List (Rule EntityId))
    (store : FactStore) : Saturation × FactStore :=
  let fuel := strategy.maxPasses.getD (passBound rules store)
  saturateFrom strategy registry rules fuel 0 none (.start store)

end HornOntology
