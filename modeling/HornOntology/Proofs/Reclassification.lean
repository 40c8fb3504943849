import HornOntology.Proofs.Growth
import HornOntology.Proofs.Materialization
import HornOntology.Proofs.Subsumption

set_option autoImplicit false

/-! # Classification before and after saturation

Classification reads the hierarchy into the facts, and the rules of the hierarchy write it into
them. To do both changes nothing: the memberships that the rules add are ones that classification
has taken into account. Since closures are transitive, an added membership gives no individual a
type that it did not have; and since it is added at the end, after the membership that it follows
from, no individual comes earlier among those of a class (`Completes.eraseDups_filterMap`). This is
so at every point of a run, and hence whenever it stops. -/

namespace HornOntology

/-- Identifiers in increasing order are determined by which ones they are. -/
theorem sortIds_congr {ids ids' : List EntityId} (h : ∀ id, id ∈ sortIds ids ↔ id ∈ sortIds ids') :
    sortIds ids = sortIds ids' := by
  have hperm : (sortIds ids).Perm (sortIds ids') :=
    (List.perm_ext_iff_of_nodup (nodup_eraseDups _) (nodup_eraseDups _)).2 h
  refine hperm.eq_of_pairwise ?_ (pairwise_sortIds ids) (pairwise_sortIds ids')
  intro a b _ _ hab hba
  omega

/-! ## Stores completed by a hierarchy -/

/-- The second store is the first with further facts, which the hierarchy entails. -/
structure Hierarchy.Completes (h : Hierarchy) (store store' : FactStore) : Prop where
  isPrefix : store.toList <+: store'.toList
  entailed : store'.factSet ⊆ h.entailed store.factSet

namespace Hierarchy.Completes

variable {registry : Registry} {axioms : List Axiom} {store store' : FactStore}

/-- What is read off a membership and off those that it follows from alike keeps its order of first
    occurrences. -/
theorem eraseDups_filterMap {h : Hierarchy} (hcompletes : h.Completes store store')
    {f : Fact → Option EntityId}
    (hf : ∀ i sub sup a, sup ∈ h.closure sub → f (.member i sup) = some a →
      f (.member i sub) = some a) :
    (store'.toList.filterMap f).eraseDups = (store.toList.filterMap f).eraseDups := by
  obtain ⟨new, hnew⟩ := hcompletes.isPrefix
  have hsubset : new.filterMap f ⊆ store.toList.filterMap f := by
    intro a ha
    obtain ⟨fact, hfact, hread⟩ := List.mem_filterMap.1 ha
    have hstored : fact ∈ store'.factSet := by
      rw [FactStore.mem_factSet, ← hnew]
      exact List.mem_append_right _ hfact
    rcases hcompletes.entailed hstored with hold | ⟨i, sub, sup, rfl, hold, hsup⟩
    · exact List.mem_filterMap.2 ⟨fact, hold, hread⟩
    · exact List.mem_filterMap.2 ⟨_, hold, hf i sub sup a hsup hread⟩
  have hdrop := eraseDups_append_append_of_subset hsubset []
  rw [List.append_nil, List.append_nil] at hdrop
  rw [← hnew, List.filterMap_append, hdrop]

variable (hcompletes : (build registry axioms).Completes store store')

include hcompletes

theorem individuals_eq : Classification.individuals store' = Classification.individuals store := by
  rw [Classification.individuals_eq, Classification.individuals_eq]
  exact hcompletes.eraseDups_filterMap fun i sub sup a _ hread => hread

/-- No individual gains or loses a type. -/
theorem closedTypes_eq (i : EntityId) :
    Classification.closedTypes (build registry axioms) store' i =
      Classification.closedTypes (build registry axioms) store i := by
  have hmem (cls : EntityId) :
      cls ∈ Classification.closedTypes (build registry axioms) store' i ↔
        cls ∈ Classification.closedTypes (build registry axioms) store i := by
    rw [Classification.mem_closedTypes_iff, Classification.mem_closedTypes_iff]
    refine ⟨?_, ?_⟩
    · intro ⟨asserted, hmem, hcls⟩
      -- a membership that was added follows from one that was there
      obtain ⟨sub, hsub, hasserted⟩ := member_mem_entailed_iff.1 (hcompletes.entailed hmem)
      exact ⟨sub, hsub, mem_closure_build_trans hasserted hcls⟩
    · intro ⟨asserted, hmem, hcls⟩
      exact ⟨asserted, hcompletes.isPrefix.subset hmem, hcls⟩
  exact sortIds_congr hmem

theorem classify_eq :
    Classification.classify registry axioms store' =
      Classification.classify registry axioms store := by
  simp only [Classification.classify, Classification.findClashes, hcompletes.individuals_eq,
    hcompletes.closedTypes_eq]

/-- The instances of a class stay the same, in the order of their first memberships below it. -/
theorem instancesOf_eq {c : Classification} (hc : c.hierarchy = build registry axioms)
    (cls : EntityId) : c.instancesOf cls store' = c.instancesOf cls store := by
  unfold Classification.instancesOf
  rw [FactStore.select_eq_filter, FactStore.select_eq_filter, List.filterMap_filter,
    List.filterMap_filter]
  refine hcompletes.eraseDups_filterMap ?_
  intro i sub sup a hsup hread
  have hany (c : EntityId) : FactPattern.anyMember.accepts (.member i c) = true := rfl
  simp only [hany, if_true, Option.ite_none_right_eq_some, hc, isSubclassOf_build_iff] at hread ⊢
  exact ⟨mem_closure_build_trans hsup hread.1, hread.2⟩

end Hierarchy.Completes

/-! ## Saturation by the rules of the hierarchy -/

/-- At whatever pass a run stops, the rules of a hierarchy have added what it entails only. -/
theorem Hierarchy.completes_saturate (strategy : Strategy) (registry : Registry)
    (axioms : List Axiom) {rules : List (Rule EntityId)}
    (hrules : ∀ rule ∈ rules, rule ∈ (build registry axioms).rules) (store : FactStore) :
    (build registry axioms).Completes store (saturate strategy registry rules store).2 where
  isPrefix := (growsTo_saturate registry strategy rules store).isPrefix
  entailed := by
    have hsafe : ∀ rule ∈ rules, rule.Safe := by
      intro rule hrule
      exact (isBuilt_rules _ rule (hrules rule hrule)).safe
    have hmodel := (isLeast_entailed registry axioms store.factSet).1
    refine (ended_saturate strategy registry hsafe store).sound _ ⟨hmodel.initial_subset, ?_⟩
    intro rule hrule
    exact hmodel.closed rule (hrules rule hrule)

theorem KnowledgeBase.completes_saturate {kb : KnowledgeBase} (hrules : kb.rules = []) :
    kb.hierarchy.Completes kb.store kb.saturate.2.store := by
  refine Hierarchy.completes_saturate kb.config.strategy kb.registry kb.axiomList ?_ kb.store
  intro rule hrule
  rcases mem_rules_of_mem_activeRules hrule with hown | hhierarchy
  · simp [hrules] at hown
  · exact hhierarchy

/-- **Saturation by the hierarchy changes no classification.** If no rules were added but those of
    the hierarchy, a saturation, with whatever strategy and limit, leaves the verdict, the
    unsatisfiable classes and the clashes as they are, and with them the types of every individual
    and the instances of every class, in their order. -/
theorem saturate_keeps_classification (kb : KnowledgeBase) (hrules : kb.rules = []) :
    kb.saturate.2.classify = kb.classify ∧
    (∀ individual, kb.saturate.2.classify.inferredTypes individual kb.saturate.2.store =
      kb.classify.inferredTypes individual kb.store) ∧
    ∀ cls, kb.saturate.2.classify.instancesOf cls kb.saturate.2.store =
      kb.classify.instancesOf cls kb.store := by
  have hcompletes : (Hierarchy.build kb.registry kb.axiomList).Completes kb.store
      kb.saturate.2.store := KnowledgeBase.completes_saturate hrules
  have hclassify : kb.saturate.2.classify = kb.classify := hcompletes.classify_eq
  rw [hclassify]
  exact ⟨rfl, hcompletes.closedTypes_eq, hcompletes.instancesOf_eq rfl⟩

/-- The nested classes, with the innermost and the outermost disjoint, and one parallel pass. -/
def clashingClasses : KnowledgeBase :=
  { nestedClasses with
    config := ⟨true, true, some 1, true⟩
    axioms := nestedClasses.axioms.push (.disjointClasses [.nth 0, .nth 2]) }

/-- The member of the innermost class clashes with the disjointness, and is an instance of the
    outermost class, after the pass as before. -/
theorem saturate_keeps_classification_clash :
    let after := clashingClasses.saturate.2
    ⟨.nth 3, (.nth 0, .nth 2)⟩ ∈ after.classify.clashes ∧
      .nth 2 ∈ after.classify.inferredTypes (.nth 3) after.store ∧
      .nth 3 ∈ after.classify.instancesOf (.nth 2) after.store := by
  intro after
  obtain ⟨hclassify, htypes, hinstances⟩ := saturate_keeps_classification clashingClasses rfl
  have hstored : Fact.member (.nth 3) (.nth 0) ∈ clashingClasses.store.toList := by
    simp [clashingClasses, nestedClasses, FactStore.toList_assert]
  have hself : .nth 0 ∈ clashingClasses.hierarchy.closure (.nth 0) :=
    Hierarchy.mem_closure_build_self _ _ _
  have hnested : .nth 2 ∈ clashingClasses.hierarchy.closure (.nth 0) :=
    (Hierarchy.mem_closure_build_iff _ _ _ _).2 (.head (List.Mem.head _)
      (.head (.tail _ (.head _)) (.head (.tail _ (.tail _ (.head _))) .refl)))
  have hfst := Classification.mem_closedTypes_iff.2 ⟨_, hstored, hself⟩
  have hsnd := Classification.mem_closedTypes_iff.2 ⟨_, hstored, hnested⟩
  rw [htypes, hinstances, hclassify]
  refine ⟨Classification.mem_findClashes_iff.2 ⟨List.Mem.head _, hfst, hsnd⟩, hsnd, ?_⟩
  exact (Classification.mem_instancesOf_iff rfl).2 ⟨_, hstored, hnested⟩

end HornOntology
