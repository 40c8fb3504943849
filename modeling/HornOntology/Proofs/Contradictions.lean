import HornOntology.Proofs.Classification
import HornOntology.Proofs.Model
import HornOntology.Proofs.Subsumption
import Mathlib.Data.List.ProdSigma

set_option autoImplicit false

/-! # What contradicts an ontology

Classification reports two things beside its verdict: the classes that can have no members, and
the individuals that belong to two disjoint classes. Both are described here by the facts and the
closures alone. A class is unsatisfiable if it lies below one that is refuted, by two disjoint
classes above it or by an individual in it and in a class disjoint to it
(`mem_unsatisfiable_iff`); as closures are transitive, marking what lies below a refuted class once
marks all. The clashes are the pairs of an individual and two disjoint classes that it belongs to,
in the order of the first memberships of the individuals and, for each, in the order of the axioms
(`findClashes_eq_filter`). -/

namespace HornOntology

namespace Classification

/-! ## Unsatisfiable classes -/

variable {registry : Registry} {axioms : List Axiom} {store : FactStore}

theorem mem_unsatisfiable_of_mem_closure {cls sup : EntityId}
    (hsup : sup ∈ (Hierarchy.build registry axioms).closure cls)
    (h : sup ∈ (classify registry axioms store).unsatisfiable) :
    cls ∈ (classify registry axioms store).unsatisfiable := by
  obtain ⟨top, htop, hrefuted⟩ := mem_unsatisfiable_iff.1 h
  exact mem_unsatisfiable_iff.2 ⟨top, Hierarchy.mem_closure_build_trans hsup htop, hrefuted⟩

/-- **Which classes are unsatisfiable.** They are the known classes below one that has two disjoint
    classes above it, or that is one of two disjoint classes with a common individual. So one round
    of marking is enough: every class below an unsatisfiable one is unsatisfiable, and equivalent
    classes are so together. -/
theorem unsatisfiable_exact (registry : Registry) (axioms : List Axiom) (store : FactStore) :
    let h := Hierarchy.build registry axioms
    let unsatisfiable := (classify registry axioms store).unsatisfiable
    (∀ cls, cls ∈ unsatisfiable ↔
      (cls ∈ registry.ofKind .cls ∨ ∃ ax ∈ axioms, ClassExpr.named cls ∈ ax.expressions) ∧
        ∃ sup ∈ h.closure cls, IsRefuted h (disjointPairs axioms) store sup) ∧
    (∀ cls, ∀ sup ∈ h.closure cls, sup ∈ unsatisfiable → cls ∈ unsatisfiable) ∧
    ∀ cls, ∀ other ∈ h.equivalents cls, cls ∈ unsatisfiable ↔ other ∈ unsatisfiable := by
  intro h unsatisfiable
  refine ⟨fun cls => ?_, fun cls sup => mem_unsatisfiable_of_mem_closure, ?_⟩
  · constructor
    · intro hcls
      exact ⟨Hierarchy.mem_classes_build_iff.1 (mem_classes_of_mem_unsatisfiable hcls),
        mem_unsatisfiable_iff.1 hcls⟩
    · rintro ⟨-, hrefuted⟩
      exact mem_unsatisfiable_iff.2 hrefuted
  · intro cls other hother
    obtain ⟨⟨habove, -⟩, hbelow⟩ := Hierarchy.mem_equivalents_build_iff.1 hother
    exact ⟨mem_unsatisfiable_of_mem_closure hbelow, mem_unsatisfiable_of_mem_closure habove⟩

/-- Robots and men are disjoint, cyborgs are both, androids are cyborgs under another name and
    terminators are androids. -/
def cyborgAxioms : List Axiom :=
  [.subClassOf (.named (.nth 0)) (.named (.nth 3)), .subClassOf (.named (.nth 0)) (.named (.nth 4)),
    .equivalentClasses [.named (.nth 0), .named (.nth 1)],
    .subClassOf (.named (.nth 2)) (.named (.nth 1)), .disjointClasses [.nth 3, .nth 4]]

/-- There are no cyborgs, and so there are neither androids nor terminators. -/
theorem unsatisfiable_exact_cyborgs :
    let unsatisfiable := (classify .empty cyborgAxioms .empty).unsatisfiable
    .nth 0 ∈ unsatisfiable ∧ .nth 1 ∈ unsatisfiable ∧ .nth 2 ∈ unsatisfiable := by
  intro unsatisfiable
  obtain ⟨hexact, hbelow, hequivalent⟩ := unsatisfiable_exact .empty cyborgAxioms .empty
  have hstep {ax : Axiom} {a b : EntityId} (hax : ax ∈ cyborgAxioms)
      (h : ax.Includes (.named a) (.named b)) :
      b ∈ (Hierarchy.build .empty cyborgAxioms).closure a :=
    (Hierarchy.mem_closure_build_iff _ _ _ _).2 (leads_iff_reaches.2 (.single ⟨ax, hax, h⟩))
  have hman : .nth 3 ∈ (Hierarchy.build .empty cyborgAxioms).closure (.nth 0) :=
    hstep (.head _) ⟨rfl, rfl⟩
  have hrobot : .nth 4 ∈ (Hierarchy.build .empty cyborgAxioms).closure (.nth 0) :=
    hstep (.tail _ (.head _)) ⟨rfl, rfl⟩
  have hsame {a b : EntityId} (ha : a ∈ [EntityId.nth 0, .nth 1])
      (hb : b ∈ [EntityId.nth 0, .nth 1]) :
      b ∈ (Hierarchy.build .empty cyborgAxioms).closure a :=
    hstep (.tail _ (.tail _ (.head _))) ⟨List.mem_map_of_mem ha, List.mem_map_of_mem hb⟩
  have hcyborg : .nth 0 ∈ unsatisfiable := by
    refine (hexact (.nth 0)).2 ⟨Or.inr ⟨_, .head _, .head _⟩, .nth 0, hsame (by simp) (by simp), ?_⟩
    exact Or.inl ⟨(.nth 3, .nth 4), .head _, hman, hrobot⟩
  have hequivalents : .nth 1 ∈ (Hierarchy.build .empty cyborgAxioms).equivalents (.nth 0) :=
    Hierarchy.mem_equivalents_build_iff.2
      ⟨⟨hsame (by simp) (by simp), by decide⟩, hsame (by simp) (by simp)⟩
  have handroid : .nth 1 ∈ unsatisfiable := (hequivalent _ _ hequivalents).1 hcyborg
  refine ⟨hcyborg, handroid, hbelow _ (.nth 1) ?_ handroid⟩
  exact hstep (.tail _ (.tail _ (.tail _ (.head _)))) ⟨rfl, rfl⟩

/-! ## Clashes -/

/-- The place of the first membership of an individual among the facts. -/
def firstMembership (store : FactStore) (individual : EntityId) : Nat :=
  store.toList.findIdx fun f => f.individual? == some individual

theorem pairwise_individuals (store : FactStore) :
    (individuals store).Pairwise fun i j => firstMembership store i < firstMembership store j := by
  rw [individuals_eq]
  exact pairwise_findIdx_eraseDups Fact.individual? store.toList

theorem clashing_closedTypes_eq_filter (hierarchy : Hierarchy)
    (disjoint : List (EntityId × EntityId)) (store : FactStore) (individual : EntityId) :
    clashing disjoint (closedTypes hierarchy store individual) =
      disjoint.filter fun pair => BelongsToBoth hierarchy store individual pair := by
  refine List.filter_congr fun pair _ => ?_
  rw [Bool.eq_iff_iff, Bool.and_eq_true, decide_eq_true_iff]
  exact and_congr (List.contains_iff_mem.trans mem_closedTypes_iff)
    (List.contains_iff_mem.trans mem_closedTypes_iff)

/-- The clashes are the pairs of an individual and of disjoint classes that it belongs to. -/
theorem findClashes_eq_filter (hierarchy : Hierarchy) (disjoint : List (EntityId × EntityId))
    (store : FactStore) :
    findClashes hierarchy disjoint store =
      ((individuals store ×ˢ disjoint).filter fun (individual, pair) =>
        BelongsToBoth hierarchy store individual pair).map fun (individual, pair) =>
          ⟨individual, pair⟩ := by
  have hproduct : individuals store ×ˢ disjoint =
      (individuals store).flatMap fun individual => disjoint.map (Prod.mk individual) := rfl
  rw [findClashes, hproduct, List.filter_flatMap, List.map_flatMap]
  refine List.flatMap_congr fun individual _ => ?_
  rw [clashing_closedTypes_eq_filter, List.filter_map, List.map_map]
  rfl

/-- **The verdict and its evidence agree.** An ontology is inconsistent exactly if there are
    clashes. These are, for the individuals in the order of their first memberships and for the
    disjoint pairs in the order of the axioms, the pairs both of whose classes lie in the closures
    of the stored types of the individual. -/
theorem clashes_exact (registry : Registry) (axioms : List Axiom) (store : FactStore) :
    let c := classify registry axioms store
    (c.consistent = false ↔ c.clashes ≠ []) ∧
    (∀ i, i ∈ individuals store ↔ ∃ cls, Fact.member i cls ∈ store.toList) ∧
    (individuals store).Pairwise (fun i j => firstMembership store i < firstMembership store j) ∧
    c.clashes =
      ((individuals store ×ˢ disjointPairs axioms).filter fun (individual, pair) =>
        BelongsToBoth (.build registry axioms) store individual pair).map fun (individual, pair) =>
          ⟨individual, pair⟩ := by
  intro c
  refine ⟨?_, fun _ => mem_individuals_iff, pairwise_individuals store,
    findClashes_eq_filter _ _ _⟩
  rw [← Bool.not_eq_true, consistent_iff_clashes_eq_nil]

end Classification

end HornOntology
