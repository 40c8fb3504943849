import HornOntology.KnowledgeBase
import HornOntology.Proofs.Classification
import HornOntology.Proofs.Saturation.Fixpoint
import HornOntology.Proofs.Saturation.Strategies

set_option autoImplicit false

/-! # Materializing the hierarchy

There are two ways to find the members of a class: to look its subclasses up in the hierarchy, as
classification does, or to let the rules of the hierarchy store the missing memberships. They
agree. The rules of a hierarchy hold of exactly the facts in which every member of a class is a
member of its whole closure (`Hierarchy.closedIn_rules_iff`), because a closure is closed already.
For the same reason the rules alone have nothing left to find after one pass. -/

namespace HornOntology

/-! ## Memberships of a store -/

theorem FactStore.mem_members_iff {store : FactStore} {individual cls : EntityId} :
    individual ∈ store.members cls ↔ Fact.member individual cls ∈ store.toList := by
  rw [members_eq_filterMap, List.mem_filterMap]
  constructor
  · rintro ⟨f, hf, hi⟩
    cases f with
    | link p s o => simp at hi
    | member i c =>
      obtain ⟨rfl, rfl⟩ : c = cls ∧ i = individual := by simpa using hi
      exact hf
  · intro hmem
    exact ⟨_, hmem, by simp⟩

theorem Classification.mem_instancesOf_iff {c : Classification} {registry : Registry}
    {axioms : List Axiom} (hc : c.hierarchy = .build registry axioms) {store : FactStore}
    {individual cls : EntityId} :
    individual ∈ c.instancesOf cls store ↔
      ∃ asserted, Fact.member individual asserted ∈ store.toList ∧
        cls ∈ c.hierarchy.closure asserted := by
  rw [instancesOf, List.mem_eraseDups, FactStore.select_eq_filter, List.mem_filterMap]
  constructor
  · rintro ⟨f, hf, hi⟩
    cases f with
    | link p s o => simp at hi
    | member i c =>
      simp only [Option.ite_none_right_eq_some, Option.some.injEq] at hi
      obtain ⟨hsub, rfl⟩ := hi
      rw [hc, Hierarchy.isSubclassOf_build_iff] at hsub
      exact ⟨c, List.mem_of_mem_filter hf, hc ▸ hsub⟩
  · rintro ⟨asserted, hmem, hcls⟩
    refine ⟨_, List.mem_filter.2 ⟨hmem, ?_⟩, ?_⟩
    · simp [FactPattern.anyMember, FactPattern.accepts, FactPattern.slot]
    · rw [hc] at hcls
      simp [hc, Hierarchy.isSubclassOf_build_iff, hcls]

/-! ## The rules of a hierarchy -/

theorem Rule.isBuilt_inclusion (name : String) (sub sup : EntityId) :
    (inclusion name sub sup).IsBuilt :=
  ⟨name, [.member sub (.var ⟨"x"⟩)], [.member sup (.var ⟨"x"⟩)], rfl⟩

/-- The rule of an inclusion says of facts what it is named for. -/
theorem Rule.closedIn_inclusion_iff {registry : Registry} {facts : Set Fact} {name : String}
    {sub sup : EntityId} :
    (inclusion name sub sup).ClosedIn registry facts ↔
      ∀ i, Fact.member i sub ∈ facts → Fact.member i sup ∈ facts := by
  simp only [ClosedIn, Fires, inclusion, List.mem_singleton, forall_eq, Atom.HoldsIn,
    Term.valueAt]
  constructor
  · intro h i hi
    exact h (fun _ => i) ⟨hi, by simp [boundVariables, Atom.isRelational]⟩
  · intro h σ hfires
    exact h _ hfires.1

namespace Hierarchy

variable {registry : Registry} {axioms : List Axiom} {facts facts' : Set Fact}

theorem exists_of_mem_rules {h : Hierarchy} {rule : Rule EntityId} (hrule : rule ∈ h.rules) :
    ∃ name sub sup, (sub, sup) ∈ h.subsumptions ∧ rule = .inclusion name sub sup := by
  obtain ⟨⟨sub, sup⟩, hmem, rfl⟩ := List.mem_map.1 hrule
  exact ⟨_, sub, sup, hmem, rfl⟩

theorem exists_mem_rules {h : Hierarchy} {sub sup : EntityId}
    (hmem : (sub, sup) ∈ h.subsumptions) : ∃ name, Rule.inclusion name sub sup ∈ h.rules :=
  ⟨_, List.mem_map.2 ⟨_, hmem, rfl⟩⟩

theorem isBuilt_rules (h : Hierarchy) : ∀ rule ∈ h.rules, rule.IsBuilt := by
  intro rule hrule
  obtain ⟨name, sub, sup, -, rfl⟩ := exists_of_mem_rules hrule
  exact Rule.isBuilt_inclusion name sub sup

/-- Every member of a class is a member of its whole closure. -/
def Closes (h : Hierarchy) (facts : Set Fact) : Prop :=
  ∀ i sub sup, Fact.member i sub ∈ facts → sup ∈ h.closure sub → Fact.member i sup ∈ facts

theorem closedIn_rules_iff :
    (∀ rule ∈ (build registry axioms).rules, rule.ClosedIn registry facts) ↔
      (build registry axioms).Closes facts := by
  constructor
  · intro h i sub sup hmem hsup
    by_cases heq : sup = sub
    · rwa [heq]
    · obtain ⟨name, hrule⟩ := exists_mem_rules (mem_subsumptions_build_iff.2 ⟨hsup, heq⟩)
      exact Rule.closedIn_inclusion_iff.1 (h _ hrule) i hmem
  · intro h rule hrule
    obtain ⟨name, sub, sup, hpair, rfl⟩ := exists_of_mem_rules hrule
    exact Rule.closedIn_inclusion_iff.2 fun i hmem =>
      h i sub sup hmem (mem_subsumptions_build_iff.1 hpair).1

/-! ## What a hierarchy adds to facts -/

/-- The facts, with every membership that follows from one of them. -/
def entailed (h : Hierarchy) (facts : Set Fact) : Set Fact :=
  facts ∪ {f | ∃ i sub sup, f = .member i sup ∧ .member i sub ∈ facts ∧ sup ∈ h.closure sub}

theorem member_mem_entailed_iff {i cls : EntityId} :
    Fact.member i cls ∈ (build registry axioms).entailed facts ↔
      ∃ sub, Fact.member i sub ∈ facts ∧ cls ∈ (build registry axioms).closure sub := by
  constructor
  · rintro (hmem | ⟨_, sub, _, heq, hmem, hcls⟩)
    · exact ⟨cls, hmem, mem_closure_build_self _ _ _⟩
    · cases heq
      exact ⟨sub, hmem, hcls⟩
  · rintro ⟨sub, hmem, hcls⟩
    exact Or.inr ⟨i, sub, cls, rfl, hmem, hcls⟩

theorem closes_entailed (registry : Registry) (axioms : List Axiom) (facts : Set Fact) :
    (build registry axioms).Closes ((build registry axioms).entailed facts) := by
  intro i sub sup hmem hsup
  rw [member_mem_entailed_iff] at hmem ⊢
  obtain ⟨asserted, hmem, hsub⟩ := hmem
  exact ⟨asserted, hmem, mem_closure_build_trans hsub hsup⟩

theorem Closes.entailed_subset {h : Hierarchy} (hcloses : h.Closes facts') (hsub : facts ⊆ facts') :
    h.entailed facts ⊆ facts' := by
  rintro f (hf | ⟨i, sub, sup, rfl, hmem, hsup⟩)
  · exact hsub hf
  · exact hcloses i sub sup (hsub hmem) hsup

/-- The rules of a hierarchy add what it entails. -/
theorem isLeast_entailed (registry : Registry) (axioms : List Axiom) (facts : Set Fact) :
    IsLeast {facts' | IsModel registry (build registry axioms).rules facts facts'}
      ((build registry axioms).entailed facts) :=
  ⟨⟨Set.subset_union_left, closedIn_rules_iff.2 (closes_entailed registry axioms facts)⟩,
    fun _ hmodel => (closedIn_rules_iff.1 hmodel.closed).entailed_subset hmodel.initial_subset⟩

/-- One pass finds everything: a rule leads from each class straight to each class above it. -/
theorem entailed_subset_runPass (strategy : Strategy) (registry : Registry) (axioms : List Axiom)
    (store : FactStore) :
    (build registry axioms).entailed store.factSet ⊆
      (runPass strategy registry (build registry axioms).rules 0 none
        (.start store)).store.factSet := by
  have hsafe : ∀ rule ∈ (build registry axioms).rules, rule.Safe :=
    fun rule hrule => (isBuilt_rules _ rule hrule).safe
  rintro f (hf | ⟨i, sub, sup, rfl, hmem, hsup⟩)
  · exact subset_runPass hf
  · by_cases heq : sup = sub
    · rw [heq]
      exact subset_runPass hmem
    · obtain ⟨name, hrule⟩ := exists_mem_rules (mem_subsumptions_build_iff.2 ⟨hsup, heq⟩)
      refine (LoopInvariant.start strategy registry _ store).consequences_subset_runPass hsafe
        hrule ⟨fun _ => i, ?_, .member sup (.var ⟨"x"⟩), List.mem_singleton.2 rfl, rfl⟩
      intro atom hatom
      rw [List.mem_singleton.1 hatom]
      exact ⟨hmem, by simp [Rule.inclusion, boundVariables, Atom.isRelational]⟩

end Hierarchy

/-- A run whose first pass finds a model makes at most one pass more. -/
theorem passes_saturate_le_two {strategy : Strategy} {registry : Registry}
    {rules : List (Rule EntityId)} (hsafe : ∀ rule ∈ rules, rule.Safe) {store : FactStore}
    (hmodel : IsModel registry rules store.factSet
      (runPass strategy registry rules 0 none (.start store)).store.factSet) :
    (saturate strategy registry rules store).1.passes ≤ 2 := by
  have hstart := LoopInvariant.start strategy registry rules store
  rw [saturate]
  cases strategy.maxPasses.getD (passBound rules store) with
  | zero => exact Nat.zero_le 2
  | succ fuel =>
    by_cases hfirst : (runPass strategy registry rules 0 none (.start store)).added = 0
    · rw [saturateFrom_of_stable hfirst]
      exact Nat.le_succ 1
    · rw [saturateFrom_of_grows hfirst]
      cases fuel with
      | zero => exact Nat.le_succ 1
      | succ fuel =>
        have hsecond := added_eq_zero_of_subset
          ((hstart.step hsafe hfirst).runPass_subset hsafe hmodel)
        rw [saturateFrom_of_stable hsecond]
        exact Nat.le_refl 2

/-- The rules of a hierarchy alone have nothing left to find after one pass. -/
theorem Hierarchy.passes_saturate_rules_le_two (strategy : Strategy) (registry : Registry)
    (axioms : List Axiom) (store : FactStore) :
    (saturate strategy registry (build registry axioms).rules store).1.passes ≤ 2 := by
  have hsafe : ∀ rule ∈ (build registry axioms).rules, rule.Safe :=
    fun rule hrule => (isBuilt_rules _ rule hrule).safe
  have hmodel := (isLeast_entailed registry axioms store.factSet).1
  have hinside := (LoopInvariant.start strategy registry _ store).runPass_subset hsafe hmodel
  have hfound := entailed_subset_runPass strategy registry axioms store
  rw [hfound.antisymm hinside] at hmodel
  exact passes_saturate_le_two hsafe hmodel

/-! ## Knowledge bases -/

namespace KnowledgeBase

variable {kb : KnowledgeBase}

/-- A rule that takes part in a saturation was added, or it is one of the hierarchy. -/
theorem mem_rules_of_mem_activeRules {rule : Rule EntityId} (h : rule ∈ kb.activeRules) :
    rule ∈ kb.rules ∨ rule ∈ kb.hierarchy.rules := by
  rw [activeRules] at h
  split at h
  · exact List.mem_append.1 h
  · exact Or.inl h

variable (hbuilt : ∀ rule ∈ kb.rules, rule.IsBuilt)

include hbuilt

theorem isBuilt_activeRules : ∀ rule ∈ kb.activeRules, rule.IsBuilt := by
  intro rule hrule
  rcases mem_rules_of_mem_activeRules hrule with hown | hhierarchy
  · exact hbuilt rule hown
  · exact kb.hierarchy.isBuilt_rules rule hhierarchy

theorem isLeast_saturate (hlimit : kb.config.maxPasses = none) :
    IsLeast {facts | IsModel kb.registry kb.activeRules kb.store.factSet facts}
      kb.saturate.2.store.factSet := by
  have hstrategy : kb.config.strategy = ⟨kb.config.semiNaive, kb.config.parallel, none⟩ := by
    rw [Config.strategy, hlimit]
  simp only [saturate, hstrategy]
  exact HornOntology.isLeast_saturate _ _ kb.registry
    (fun rule hrule => (isBuilt_activeRules hbuilt rule hrule).safe) kb.store

end KnowledgeBase

/-- **Saturation and classification agree on the hierarchy.** If the hierarchy takes part in a
    saturation without a limit, then the stored types of every individual are those that
    classification infers. If there are no other rules, the members of each class are the
    instances that classification found before, and two passes are enough. -/
theorem saturate_materializes (kb : KnowledgeBase) (hbuilt : ∀ rule ∈ kb.rules, rule.IsBuilt)
    (hhierarchy : kb.config.materializeHierarchy = true) (hlimit : kb.config.maxPasses = none) :
    (∀ individual cls, cls ∈ kb.saturate.2.store.types individual ↔
      cls ∈ kb.saturate.2.classify.inferredTypes individual kb.saturate.2.store) ∧
    (kb.rules = [] →
      (∀ cls individual, individual ∈ kb.saturate.2.store.members cls ↔
        individual ∈ kb.classify.instancesOf cls kb.store) ∧
      kb.saturate.1.passes ≤ 2) := by
  have hactive : kb.activeRules = kb.rules ++ kb.hierarchy.rules := if_pos hhierarchy
  have hleast := KnowledgeBase.isLeast_saturate hbuilt hlimit
  constructor
  · intro individual cls
    have hcloses : kb.hierarchy.Closes kb.saturate.2.store.factSet :=
      Hierarchy.closedIn_rules_iff.1 fun rule hrule =>
        hleast.1.closed rule (hactive ▸ List.mem_append_right _ hrule)
    rw [FactStore.mem_types_iff, Classification.inferredTypes, Classification.mem_closedTypes_iff]
    constructor
    · intro hmem
      exact ⟨cls, hmem, Hierarchy.mem_closure_build_self _ _ _⟩
    · rintro ⟨asserted, hmem, hcls⟩
      exact hcloses individual asserted cls hmem hcls
  · intro hrules
    rw [hrules, List.nil_append] at hactive
    rw [hactive] at hleast
    constructor
    · intro cls individual
      have hfacts : kb.saturate.2.store.factSet = kb.hierarchy.entailed kb.store.factSet :=
        hleast.unique (Hierarchy.isLeast_entailed kb.registry kb.axiomList kb.store.factSet)
      have hbuild : kb.classify.hierarchy = .build kb.registry kb.axiomList := rfl
      rw [FactStore.mem_members_iff, ← FactStore.mem_factSet, hfacts,
        Classification.mem_instancesOf_iff hbuild]
      exact Hierarchy.member_mem_entailed_iff
    · show (saturate kb.config.strategy kb.registry kb.activeRules kb.store).1.passes ≤ 2
      rw [hactive]
      exact Hierarchy.passes_saturate_rules_le_two _ _ _ _

/-- A class in a class in a class, the last step by way of an intersection, and a member of the
    first. -/
def nestedClasses : KnowledgeBase where
  config := ⟨true, false, none, true⟩
  registry := .empty
  axioms := #[.subClassOf (.named (.nth 0)) (.named (.nth 1)),
    .subClassOf (.named (.nth 1)) (.intersection [.named (.nth 2)]),
    .subClassOf (.intersection [.named (.nth 2)]) (.named (.nth 2))]
  store := FactStore.empty.assert (.member (.nth 3) (.nth 0))
  rules := []
  queries := []

/-- Two passes store that the member of the innermost class is a member of the outermost. -/
theorem saturate_materializes_nested :
    EntityId.nth 3 ∈ nestedClasses.saturate.2.store.members (.nth 2) ∧
      nestedClasses.saturate.1.passes ≤ 2 := by
  obtain ⟨-, hnone⟩ := saturate_materializes nestedClasses (by simp [nestedClasses]) rfl rfl
  obtain ⟨hmembers, hpasses⟩ := hnone rfl
  refine ⟨(hmembers _ _).2 ((Classification.mem_instancesOf_iff rfl).2 ⟨.nth 0, ?_, ?_⟩), hpasses⟩
  · simp [nestedClasses, FactStore.toList_assert]
  · refine (Hierarchy.mem_closure_build_iff _ _ _ _).2 ?_
    exact .head (List.Mem.head _) (.head (.tail _ (.head _))
      (.head (.tail _ (.tail _ (.head _))) .refl))

end HornOntology
