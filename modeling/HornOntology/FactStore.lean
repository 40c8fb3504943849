import HornOntology.Fact
import HornOntology.Grouping
import Std.Data.HashSet

set_option autoImplicit false

/-! # The fact store

A `FactStore` holds facts without repetition, in the order in which they were first asserted, and
never forgets one. Beside the list of facts it keeps one index for each way of asking, so that
`select` looks only at a group that must contain every match. The indexes are part of the type's
invariant: each group is the list of facts filtered by its key, so that the choice of an index
shows neither in the facts that are found nor in their order (`select_eq_filter`). -/

namespace HornOntology

/-! ## Indexes over a list of facts -/

/-- File a fact under its key, if it has one. -/
def Grouping.file {κ : Type} [BEq κ] [Hashable κ] (g : Grouping κ Fact) (key : Option κ)
    (fact : Fact) : Grouping κ Fact :=
  match key with
  | some k => g.add k fact
  | none => g

/-- Every group of the index is the list of facts filtered by the key. -/
def Grouping.Indexes {κ : Type} [BEq κ] [Hashable κ] (g : Grouping κ Fact)
    (key : Fact → Option κ) (facts : Array Fact) : Prop :=
  ∀ k, g.get k = facts.filter fun f => key f == some k

namespace Grouping.Indexes

variable {κ : Type} [BEq κ] [Hashable κ]

theorem empty (key : Fact → Option κ) : Indexes Grouping.empty key #[] := by
  intro k; simp

variable [LawfulBEq κ] [LawfulHashable κ]

theorem push {g : Grouping κ Fact} {key : Fact → Option κ} {facts : Array Fact}
    (h : g.Indexes key facts) (fact : Fact) :
    (g.file (key fact) fact).Indexes key (facts.push fact) := by
  intro k
  unfold Grouping.file
  cases hk : key fact with
  | none => simp [h k, hk]
  | some k' => by_cases hkk : k' = k <;> simp [h k, Grouping.get_add, hk, hkk]

end Grouping.Indexes

/-! ## The store -/

/-- Facts in the order of their first assertion, with indexes. -/
structure FactStore where
  /-- The facts, oldest first. -/
  facts : Array Fact
  /-- The facts as a set. -/
  present : Std.HashSet Fact
  byShape : Grouping FactShape Fact
  byClass : Grouping EntityId Fact
  byIndividual : Grouping EntityId Fact
  byProperty : Grouping EntityId Fact
  bySubject : Grouping (EntityId × EntityId) Fact
  byObject : Grouping (EntityId × EntityId) Fact
  mem_present : ∀ f, f ∈ present ↔ f ∈ facts
  nodup : facts.toList.Nodup
  byShape_indexes : byShape.Indexes (fun f => some f.shape) facts
  byClass_indexes : byClass.Indexes Fact.cls? facts
  byIndividual_indexes : byIndividual.Indexes Fact.individual? facts
  byProperty_indexes : byProperty.Indexes Fact.property? facts
  bySubject_indexes : bySubject.Indexes Fact.propertySubject? facts
  byObject_indexes : byObject.Indexes Fact.propertyObject? facts

namespace FactStore

/-- The store without facts. -/
def empty : FactStore where
  facts := #[]
  present := ∅
  byShape := .empty
  byClass := .empty
  byIndividual := .empty
  byProperty := .empty
  bySubject := .empty
  byObject := .empty
  mem_present := by simp
  nodup := by simp
  byShape_indexes := .empty _
  byClass_indexes := .empty _
  byIndividual_indexes := .empty _
  byProperty_indexes := .empty _
  bySubject_indexes := .empty _
  byObject_indexes := .empty _

/-- The facts as a list, oldest first. -/
def toList (s : FactStore) : List Fact := s.facts.toList

/-- How many facts there are. -/
def size (s : FactStore) : Nat := s.facts.size

/-- Whether there are no facts. -/
def isEmpty (s : FactStore) : Bool := s.facts.isEmpty

/-- Whether a fact is stored. -/
def contains (s : FactStore) (fact : Fact) : Bool := s.present.contains fact

theorem contains_iff (s : FactStore) (fact : Fact) : s.contains fact = true ↔ fact ∈ s.toList := by
  rw [contains, ← Std.HashSet.mem_iff_contains, s.mem_present, toList, Array.mem_toList_iff]

/-- Append a fact that is not stored yet. -/
def push (s : FactStore) (fact : Fact) (absent : ¬ s.contains fact = true) : FactStore where
  facts := s.facts.push fact
  present := s.present.insert fact
  byShape := s.byShape.file (some fact.shape) fact
  byClass := s.byClass.file fact.cls? fact
  byIndividual := s.byIndividual.file fact.individual? fact
  byProperty := s.byProperty.file fact.property? fact
  bySubject := s.bySubject.file fact.propertySubject? fact
  byObject := s.byObject.file fact.propertyObject? fact
  mem_present := by
    intro f
    rw [Std.HashSet.mem_insert, s.mem_present, Array.mem_push, beq_iff_eq, eq_comm, or_comm]
  nodup := by
    have h : fact ∉ s.facts.toList := fun h => absent ((s.contains_iff fact).2 h)
    rw [Array.toList_push, List.nodup_append]
    exact ⟨s.nodup, by simp, fun a ha b hb => by
      rw [List.mem_singleton] at hb
      rintro rfl
      exact h (hb ▸ ha)⟩
  byShape_indexes := s.byShape_indexes.push fact
  byClass_indexes := s.byClass_indexes.push fact
  byIndividual_indexes := s.byIndividual_indexes.push fact
  byProperty_indexes := s.byProperty_indexes.push fact
  bySubject_indexes := s.bySubject_indexes.push fact
  byObject_indexes := s.byObject_indexes.push fact

/-- Add a fact unless it is there already. -/
def assert (s : FactStore) (fact : Fact) : FactStore :=
  if h : s.contains fact = true then s else s.push fact h

/-- Add facts one after the other. -/
def extend (s : FactStore) (facts : List Fact) : FactStore := facts.foldl assert s

/-- Add a fact; the result tells whether it is new. -/
def learn (s : FactStore) (fact : Fact) : Bool × FactStore := (!s.contains fact, s.assert fact)

/-- Add facts one after the other; the result counts those that are new. -/
def learnAll (s : FactStore) : List Fact → Nat × FactStore
  | [] => (0, s)
  | fact :: facts =>
    let (isNew, s) := s.learn fact
    let (count, s) := s.learnAll facts
    (if isNew then count + 1 else count, s)

theorem toList_assert (s : FactStore) (fact : Fact) :
    (s.assert fact).toList = if fact ∈ s.toList then s.toList else s.toList ++ [fact] := by
  unfold assert
  by_cases h : s.contains fact = true
  · simp [h, (s.contains_iff fact).1 h]
  · have h' : fact ∉ s.toList := fun hm => h ((s.contains_iff fact).2 hm)
    rw [dif_neg h, if_neg h']
    simp [push, toList]

/-! ## Asking -/

/-- The smaller of two groups, the first if they are equally large. -/
def narrower (a b : Array Fact) : Array Fact := if a.size ≤ b.size then a else b

/-- The stored facts that may match a pattern, by the narrowest index that covers it. -/
def candidates (s : FactStore) : FactPattern → Array Fact
  | .member (some cls) (some individual) =>
    narrower (s.byClass.get cls) (s.byIndividual.get individual)
  | .member (some cls) none => s.byClass.get cls
  | .member none (some individual) => s.byIndividual.get individual
  | .member none none => s.byShape.get .member
  | .link (some property) (some subject) (some object) =>
    narrower (s.bySubject.get (property, subject)) (s.byObject.get (property, object))
  | .link (some property) (some subject) none => s.bySubject.get (property, subject)
  | .link (some property) none (some object) => s.byObject.get (property, object)
  | .link (some property) none none => s.byProperty.get property
  | .link none _ _ => s.byShape.get .link

/-- The stored facts that match a pattern, oldest first. -/
def select (s : FactStore) (pattern : FactPattern) : List Fact :=
  (s.candidates pattern).toList.filter pattern.accepts

/-- An index whose key every match shares loses no match. -/
theorem filter_get {κ : Type} [BEq κ] [LawfulBEq κ] [Hashable κ] {g : Grouping κ Fact}
    {key : Fact → Option κ} {facts : Array Fact} (h : g.Indexes key facts) (k : κ)
    (pattern : FactPattern) (covers : ∀ f, pattern.accepts f = true → key f = some k) :
    (g.get k).toList.filter pattern.accepts = facts.toList.filter pattern.accepts := by
  rw [h k, Array.toList_filter, List.filter_filter]
  refine List.filter_congr fun f _ => ?_
  by_cases hf : pattern.accepts f = true
  · simp [hf, covers f hf]
  · simp [hf]

/-- Whichever index is used, `select` keeps exactly the facts that match, in their order. -/
theorem select_eq_filter (s : FactStore) (pattern : FactPattern) :
    s.select pattern = s.toList.filter pattern.accepts := by
  have narrow (a b : Array Fact) (xs : List Fact) (ha : a.toList.filter pattern.accepts = xs)
      (hb : b.toList.filter pattern.accepts = xs) :
      (narrower a b).toList.filter pattern.accepts = xs := by
    unfold narrower; split <;> assumption
  unfold select toList
  match pattern with
  | .member (some c) (some i) =>
    refine narrow _ _ _ (filter_get s.byClass_indexes _ _ ?_)
      (filter_get s.byIndividual_indexes _ _ ?_) <;>
    · rintro (_ | _) h <;> simp_all [FactPattern.accepts, FactPattern.slot, Fact.cls?,
        Fact.individual?]
  | .member (some c) none =>
    refine filter_get s.byClass_indexes _ _ ?_
    rintro (_ | _) h <;> simp_all [FactPattern.accepts, FactPattern.slot, Fact.cls?]
  | .member none (some i) =>
    refine filter_get s.byIndividual_indexes _ _ ?_
    rintro (_ | _) h <;> simp_all [FactPattern.accepts, FactPattern.slot, Fact.individual?]
  | .member none none =>
    refine filter_get s.byShape_indexes _ _ ?_
    rintro (_ | _) h <;> simp_all [FactPattern.accepts, Fact.shape]
  | .link (some p) (some x) (some y) =>
    refine narrow _ _ _ (filter_get s.bySubject_indexes _ _ ?_)
      (filter_get s.byObject_indexes _ _ ?_) <;>
    · rintro (_ | _) h <;> simp_all [FactPattern.accepts, FactPattern.slot,
        Fact.propertySubject?, Fact.propertyObject?]
  | .link (some p) (some x) none =>
    refine filter_get s.bySubject_indexes _ _ ?_
    rintro (_ | _) h <;> simp_all [FactPattern.accepts, FactPattern.slot, Fact.propertySubject?]
  | .link (some p) none (some y) =>
    refine filter_get s.byObject_indexes _ _ ?_
    rintro (_ | _) h <;> simp_all [FactPattern.accepts, FactPattern.slot, Fact.propertyObject?]
  | .link (some p) none none =>
    refine filter_get s.byProperty_indexes _ _ ?_
    rintro (_ | _) h <;> simp_all [FactPattern.accepts, FactPattern.slot, Fact.property?]
  | .link none x y =>
    refine filter_get s.byShape_indexes _ _ ?_
    rintro (_ | _) h <;> simp_all [FactPattern.accepts, Fact.shape]

/-- The members of a class. -/
def members (s : FactStore) (cls : EntityId) : List EntityId :=
  (s.select (.member (some cls) none)).filterMap Fact.individual?

/-- The classes of an individual. -/
def types (s : FactStore) (individual : EntityId) : List EntityId :=
  (s.select (.member none (some individual))).map Fact.predicate

/-- The objects that a property links to a subject. -/
def values (s : FactStore) (property subject : EntityId) : List EntityId :=
  (s.select (.link (some property) (some subject) none)).filterMap fun
    | .link _ _ object => some object
    | .member _ _ => none

/-- The facts in the order of facts, rather than of assertion. -/
def sorted (s : FactStore) : List Fact := s.toList.mergeSort fun a b => (a.order b).isLE

end FactStore

end HornOntology
