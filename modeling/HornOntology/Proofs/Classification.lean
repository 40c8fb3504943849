import HornOntology.Classification
import HornOntology.Proofs.Hierarchy
import Mathlib.Data.Set.Disjoint
import Mathlib.Data.Set.Lattice
import Mathlib.Order.CompletePartialOrder

set_option autoImplicit false

/-! # Consistency is having a model

An `Interpretation` gives an element of a domain to every individual and a set of elements to
every class expression; intersections and value restrictions are names like any other, told apart
by their form. It is a model of an ontology if it makes every axiom and every membership true.

A class is unsatisfiable if it lies below one that is refuted (`mem_unsatisfiable_iff`), and where
such a class has a member there is a clash. So the verdict of classification and its clashes agree:
an ontology is consistent exactly if no individual belongs to two disjoint classes
(`consistent_iff_clashes_eq_nil`). A clash leaves no room for a model, and without one the
individuals themselves are a model, each in the classes that its memberships lead to (`canonical`).
So the ontology is consistent exactly if it has a model. -/

namespace HornOntology

/-! ## Disjoint pairs -/

theorem pairwise_iff_forall_mem_pairs {α : Type} {R : α → α → Prop} {l : List α} :
    l.Pairwise R ↔ ∀ p ∈ pairs l, R p.1 p.2 := by
  induction l with
  | nil => simp [pairs]
  | cons a rest ih =>
    rw [List.pairwise_cons, pairs, List.forall_mem_append, List.forall_mem_map, ih]

theorem mem_of_mem_pairs {α : Type} {l : List α} {p : α × α} (h : p ∈ pairs l) :
    p.1 ∈ l ∧ p.2 ∈ l := by
  induction l with
  | nil => simp [pairs] at h
  | cons a rest ih =>
    rw [pairs, List.mem_append] at h
    rcases h with h | h
    · obtain ⟨b, hb, rfl⟩ := List.mem_map.1 h
      exact ⟨List.mem_cons_self, List.mem_cons_of_mem _ hb⟩
    · exact ⟨List.mem_cons_of_mem _ (ih h).1, List.mem_cons_of_mem _ (ih h).2⟩

theorem mem_disjointPairs_iff {axioms : List Axiom} {p : EntityId × EntityId} :
    p ∈ disjointPairs axioms ↔
      ∃ classes, Axiom.disjointClasses classes ∈ axioms ∧ p ∈ pairs classes := by
  rw [disjointPairs, List.mem_flatMap]
  constructor
  · rintro ⟨ax, hax, hp⟩
    cases ax with
    | disjointClasses classes => exact ⟨classes, hax, hp⟩
    | declaration entity => simp [Axiom.disjointPairs] at hp
    | subClassOf sub sup => simp [Axiom.disjointPairs] at hp
    | equivalentClasses classes => simp [Axiom.disjointPairs] at hp
  · rintro ⟨classes, hax, hp⟩
    exact ⟨_, hax, hp⟩

theorem mem_classes_of_mem_disjointPairs (registry : Registry) {axioms : List Axiom}
    {p : EntityId × EntityId} (h : p ∈ disjointPairs axioms) :
    p.1 ∈ (Hierarchy.build registry axioms).classes ∧
      p.2 ∈ (Hierarchy.build registry axioms).classes := by
  obtain ⟨classes, hax, hp⟩ := mem_disjointPairs_iff.1 h
  obtain ⟨hfst, hsnd⟩ := mem_of_mem_pairs hp
  exact ⟨Hierarchy.mem_classes_build_of_mem_expressions hax (List.mem_map_of_mem hfst),
    Hierarchy.mem_classes_build_of_mem_expressions hax (List.mem_map_of_mem hsnd)⟩

/-! ## Types and clashes -/

theorem FactStore.mem_types_iff {store : FactStore} {individual cls : EntityId} :
    cls ∈ store.types individual ↔ Fact.member individual cls ∈ store.toList := by
  rw [types, select_eq_filter, List.mem_map]
  constructor
  · rintro ⟨f, hf, rfl⟩
    obtain ⟨hmem, haccepts⟩ := List.mem_filter.1 hf
    cases f with
    | link p s o => simp [FactPattern.accepts] at haccepts
    | member i c =>
      obtain rfl : individual = i := by
        simpa [FactPattern.accepts, FactPattern.slot] using haccepts
      exact hmem
  · intro hmem
    refine ⟨_, List.mem_filter.2 ⟨hmem, ?_⟩, rfl⟩
    simp [FactPattern.accepts, FactPattern.slot]

namespace Classification

variable {registry : Registry} {axioms : List Axiom} {store : FactStore}

theorem individuals_eq (store : FactStore) :
    individuals store = (store.toList.filterMap Fact.individual?).eraseDups := by
  rw [individuals, FactStore.select_eq_filter, List.filterMap_filter]
  congr 2
  funext f
  cases f with
  | member i c => simp [FactPattern.anyMember, FactPattern.accepts, FactPattern.slot]
  | link p s o => simp [Fact.individual?]

theorem mem_individuals_iff {individual : EntityId} :
    individual ∈ individuals store ↔ ∃ cls, Fact.member individual cls ∈ store.toList := by
  rw [individuals_eq, List.mem_eraseDups, List.mem_filterMap]
  constructor
  · rintro ⟨f, hf, hi⟩
    cases f with
    | link p s o => simp [Fact.individual?] at hi
    | member i c =>
      cases hi
      exact ⟨c, hf⟩
  · rintro ⟨cls, hmem⟩
    exact ⟨_, hmem, rfl⟩

theorem mem_closedTypes_iff {hierarchy : Hierarchy} {individual cls : EntityId} :
    cls ∈ closedTypes hierarchy store individual ↔
      ∃ asserted, Fact.member individual asserted ∈ store.toList ∧
        cls ∈ hierarchy.closure asserted := by
  simp only [closedTypes, Hierarchy.closureOf, mem_sortIds, List.mem_flatMap,
    FactStore.mem_types_iff]

theorem mem_clashing_iff {disjoint : List (EntityId × EntityId)} {classes : List EntityId}
    {p : EntityId × EntityId} :
    p ∈ clashing disjoint classes ↔ p ∈ disjoint ∧ p.1 ∈ classes ∧ p.2 ∈ classes := by
  simp [clashing, List.mem_filter]

theorem mem_findClashes_iff {hierarchy : Hierarchy} {disjoint : List (EntityId × EntityId)}
    {clash : Clash} :
    clash ∈ findClashes hierarchy disjoint store ↔
      clash.disjoint ∈ disjoint ∧
        clash.disjoint.1 ∈ closedTypes hierarchy store clash.individual ∧
        clash.disjoint.2 ∈ closedTypes hierarchy store clash.individual := by
  simp only [findClashes, List.mem_flatMap, List.mem_map]
  constructor
  · rintro ⟨individual, -, p, hp, rfl⟩
    exact mem_clashing_iff.1 hp
  · intro h
    obtain ⟨asserted, hmem, -⟩ := mem_closedTypes_iff.1 h.2.1
    exact ⟨_, mem_individuals_iff.2 ⟨asserted, hmem⟩, _, mem_clashing_iff.2 h, rfl⟩

/-! ## Belonging to a class -/

/-- A membership of the individual leads to the class. -/
def Belongs (hierarchy : Hierarchy) (store : FactStore) (individual cls : EntityId) : Prop :=
  ∃ asserted, Fact.member individual asserted ∈ store.toList ∧ cls ∈ hierarchy.closure asserted

instance (hierarchy : Hierarchy) (store : FactStore) (individual cls : EntityId) :
    Decidable (Belongs hierarchy store individual cls) :=
  decidable_of_iff (cls ∈ closedTypes hierarchy store individual) mem_closedTypes_iff

/-- The individual belongs to both classes of a pair. -/
def BelongsToBoth (hierarchy : Hierarchy) (store : FactStore) (individual : EntityId)
    (pair : EntityId × EntityId) : Prop :=
  Belongs hierarchy store individual pair.1 ∧ Belongs hierarchy store individual pair.2

instance (hierarchy : Hierarchy) (store : FactStore) (individual : EntityId)
    (pair : EntityId × EntityId) : Decidable (BelongsToBoth hierarchy store individual pair) :=
  inferInstanceAs (Decidable (_ ∧ _))

/-! ## Unsatisfiable classes -/

/-- There are two disjoint classes above the class, or it is one of two disjoint classes that some
    individual belongs to. -/
def IsRefuted (hierarchy : Hierarchy) (disjoint : List (EntityId × EntityId)) (store : FactStore)
    (cls : EntityId) : Prop :=
  (∃ pair ∈ disjoint, pair.1 ∈ hierarchy.closure cls ∧ pair.2 ∈ hierarchy.closure cls) ∨
    ∃ pair ∈ disjoint, (cls = pair.1 ∨ cls = pair.2) ∧
      ∃ individual, BelongsToBoth hierarchy store individual pair

/-- A class that is refuted is known, since an axiom names it or it has others above it. -/
theorem mem_classes_of_isRefuted {cls : EntityId}
    (h : IsRefuted (.build registry axioms) (disjointPairs axioms) store cls) :
    cls ∈ (Hierarchy.build registry axioms).classes := by
  rcases h with ⟨pair, hpair, hfst, -⟩ | ⟨pair, hpair, rfl | rfl, -⟩
  · by_cases heq : pair.1 = cls
    · rw [← heq]
      exact (mem_classes_of_mem_disjointPairs registry hpair).1
    · exact (Hierarchy.mem_classes_build_of_ne hfst heq).1
  · exact (mem_classes_of_mem_disjointPairs registry hpair).1
  · exact (mem_classes_of_mem_disjointPairs registry hpair).2

theorem mem_selfClashing_iff {hierarchy : Hierarchy} {disjoint : List (EntityId × EntityId)}
    {cls : EntityId} :
    cls ∈ selfClashing hierarchy disjoint ↔
      cls ∈ hierarchy.classes ∧
        ∃ pair ∈ disjoint, pair.1 ∈ hierarchy.closure cls ∧ pair.2 ∈ hierarchy.closure cls := by
  rw [selfClashing, List.mem_filter, Bool.not_eq_true', List.isEmpty_eq_false_iff_exists_mem]
  simp only [mem_clashing_iff]

/-- The marks are on the classes that are refuted. -/
theorem mem_marked_iff {cls : EntityId} :
    cls ∈ marked (.build registry axioms) (disjointPairs axioms)
        (findClashes (.build registry axioms) (disjointPairs axioms) store) ↔
      IsRefuted (.build registry axioms) (disjointPairs axioms) store cls := by
  rw [marked, List.mem_append, mem_selfClashing_iff]
  constructor
  · rintro (⟨-, hpair⟩ | hclash)
    · exact Or.inl hpair
    · obtain ⟨clash, hmem, hcls⟩ := List.mem_flatMap.1 hclash
      obtain ⟨hdisjoint, hfst, hsnd⟩ := mem_findClashes_iff.1 hmem
      exact Or.inr ⟨clash.disjoint, hdisjoint, by simpa using hcls, clash.individual,
        mem_closedTypes_iff.1 hfst, mem_closedTypes_iff.1 hsnd⟩
  · intro h
    rcases h with hpair | ⟨pair, hdisjoint, hcls, individual, hfst, hsnd⟩
    · exact Or.inl ⟨@mem_classes_of_isRefuted registry axioms store cls (Or.inl hpair), hpair⟩
    · refine Or.inr (List.mem_flatMap.2 ⟨⟨individual, pair⟩, mem_findClashes_iff.2 ?_, ?_⟩)
      · exact ⟨hdisjoint, mem_closedTypes_iff.2 hfst, mem_closedTypes_iff.2 hsnd⟩
      · simpa using hcls

/-- The unsatisfiable classes are those below a class that is refuted: a mark is below itself. -/
theorem mem_unsatisfiable_iff {cls : EntityId} :
    cls ∈ (classify registry axioms store).unsatisfiable ↔
      ∃ sup ∈ (Hierarchy.build registry axioms).closure cls,
        IsRefuted (.build registry axioms) (disjointPairs axioms) store sup := by
  simp only [classify, mem_sortIds, List.mem_append, reaching, List.mem_filter, List.any_eq_true,
    List.contains_iff_mem, mem_marked_iff]
  constructor
  · rintro (hrefuted | ⟨-, hbelow⟩)
    · exact ⟨cls, Hierarchy.mem_closure_build_self _ _ _, hrefuted⟩
    · exact hbelow
  · rintro ⟨sup, hsup, hrefuted⟩
    by_cases heq : sup = cls
    · exact Or.inl (heq ▸ hrefuted)
    · exact Or.inr ⟨(Hierarchy.mem_classes_build_of_ne hsup heq).1, sup, hsup, hrefuted⟩

theorem mem_classes_of_mem_unsatisfiable {cls : EntityId}
    (h : cls ∈ (classify registry axioms store).unsatisfiable) :
    cls ∈ (Hierarchy.build registry axioms).classes := by
  obtain ⟨sup, hsup, hrefuted⟩ := mem_unsatisfiable_iff.1 h
  by_cases heq : sup = cls
  · exact heq ▸ mem_classes_of_isRefuted hrefuted
  · exact (Hierarchy.mem_classes_build_of_ne hsup heq).1

/-! ## The verdict -/

theorem mem_closedTypes_trans {individual sub sup : EntityId}
    (hsub : sub ∈ closedTypes (.build registry axioms) store individual)
    (hsup : sup ∈ (Hierarchy.build registry axioms).closure sub) :
    sup ∈ closedTypes (.build registry axioms) store individual := by
  obtain ⟨asserted, hmem, hclosure⟩ := mem_closedTypes_iff.1 hsub
  exact mem_closedTypes_iff.2 ⟨asserted, hmem, Hierarchy.mem_closure_build_trans hclosure hsup⟩

theorem mem_unsatisfiable_of_mem_clashes {clash : Clash}
    (h : clash ∈ (classify registry axioms store).clashes) :
    clash.disjoint.1 ∈ (classify registry axioms store).unsatisfiable := by
  obtain ⟨hdisjoint, hfst, hsnd⟩ := mem_findClashes_iff.1 h
  have hself : clash.disjoint.1 ∈ (Hierarchy.build registry axioms).closure clash.disjoint.1 :=
    Hierarchy.mem_closure_build_self _ _ _
  exact mem_unsatisfiable_iff.2 ⟨_, hself, Or.inr ⟨_, hdisjoint, Or.inl rfl, clash.individual,
    mem_closedTypes_iff.1 hfst, mem_closedTypes_iff.1 hsnd⟩⟩

/-- The ontology is consistent exactly if no individual belongs to two disjoint classes. -/
theorem consistent_iff_clashes_eq_nil :
    (classify registry axioms store).consistent = true ↔
      (classify registry axioms store).clashes = [] := by
  have hverdict : (classify registry axioms store).consistent = true ↔
      ∀ i ∈ individuals store, ∀ cls ∈ closedTypes (.build registry axioms) store i,
        cls ∉ (classify registry axioms store).unsatisfiable := by
    simp [classify]
  rw [hverdict, List.eq_nil_iff_forall_not_mem]
  constructor
  · intro hall clash hclash
    obtain ⟨-, hfst, -⟩ := mem_findClashes_iff.1 hclash
    obtain ⟨asserted, hmem, -⟩ := mem_closedTypes_iff.1 hfst
    exact hall _ (mem_individuals_iff.2 ⟨asserted, hmem⟩) _ hfst
      (mem_unsatisfiable_of_mem_clashes hclash)
  · intro hnone i _ cls hcls hunsat
    -- what refutes a class above is a clash, of this individual or of another one
    obtain ⟨sup, hsup, ⟨p, hp, hfst, hsnd⟩ | ⟨p, hp, -, j, hfst, hsnd⟩⟩ :=
      mem_unsatisfiable_iff.1 hunsat
    · have hmem := mem_closedTypes_trans hcls hsup
      exact hnone ⟨i, p⟩ (mem_findClashes_iff.2
        ⟨hp, mem_closedTypes_trans hmem hfst, mem_closedTypes_trans hmem hsnd⟩)
    · exact hnone ⟨j, p⟩ (mem_findClashes_iff.2
        ⟨hp, mem_closedTypes_iff.2 hfst, mem_closedTypes_iff.2 hsnd⟩)

end Classification

/-! ## Models -/

/-- Sets that grow along every inclusion grow along every path. -/
theorem Leads.subset {D : Type} {inclusions : List Inclusion} {S : ClassExpr → Set D}
    {a b : ClassExpr} (hpath : Leads inclusions a b)
    (h : ∀ x y, (x, y) ∈ inclusions → S x ⊆ S y) : S a ⊆ S b := by
  induction hpath with
  | refl => exact Set.Subset.rfl
  | tail _ hstep ih => exact ih.trans (h _ _ hstep)

/-- An element for every individual, and a set of elements for every class expression. -/
structure Interpretation where
  Domain : Type
  individual : EntityId → Domain
  extension : ClassExpr → Set Domain

namespace Interpretation

variable {registry : Registry} {axioms : List Axiom} {store : FactStore}

/-- What an axiom says about the sets of elements. -/
def Satisfies (I : Interpretation) : Axiom → Prop
  | .declaration _ => True
  | .subClassOf sub sup => I.extension sub ⊆ I.extension sup
  | .equivalentClasses classes => ∀ a ∈ classes, ∀ b ∈ classes, I.extension a = I.extension b
  | .disjointClasses classes =>
    classes.Pairwise fun a b => Disjoint (I.extension (.named a)) (I.extension (.named b))

/-- Every axiom and every membership is true. -/
structure IsModel (I : Interpretation) (axioms : List Axiom) (store : FactStore) : Prop where
  satisfies : ∀ ax ∈ axioms, I.Satisfies ax
  member : ∀ individual cls, Fact.member individual cls ∈ store.toList →
    I.individual individual ∈ I.extension (.named cls)

theorem IsModel.subset_of_leads {I : Interpretation} (h : I.IsModel axioms store)
    {a b : ClassExpr} (hpath : Leads (axioms.flatMap Axiom.inclusions) a b) :
    I.extension a ⊆ I.extension b := by
  refine hpath.subset fun x y hstep => ?_
  obtain ⟨ax, hax, hin⟩ := List.mem_flatMap.1 hstep
  have hsat := h.satisfies ax hax
  have hincludes := Axiom.includes_of_mem_inclusions hin
  cases ax with
  | declaration entity => exact hincludes.elim
  | disjointClasses classes => exact hincludes.elim
  | equivalentClasses classes => exact (hsat x hincludes.1 y hincludes.2).subset
  | subClassOf sub sup =>
    obtain ⟨rfl, rfl⟩ := hincludes
    exact hsat

/-- The individuals themselves, each in the classes that its memberships lead to. -/
def canonical (axioms : List Axiom) (store : FactStore) : Interpretation where
  Domain := EntityId
  individual := id
  extension e := {i | ∃ cls, Fact.member i cls ∈ store.toList ∧
    Leads (axioms.flatMap Axiom.inclusions) (.named cls) e}

theorem subset_canonical {a b : ClassExpr} (h : (a, b) ∈ axioms.flatMap Axiom.inclusions) :
    (canonical axioms store).extension a ⊆ (canonical axioms store).extension b := by
  rintro i ⟨cls, hmem, hpath⟩
  exact ⟨cls, hmem, hpath.tail h⟩

theorem eq_of_mem_neighbours {classes : List ClassExpr} {S : ClassExpr → Set EntityId}
    (h : ∀ a b, (a, b) ∈ neighbours classes → S a ⊆ S b) :
    ∀ a ∈ classes, ∀ b ∈ classes, S a = S b := by
  intro a ha b hb
  exact ((leads_neighbours ha hb).subset h).antisymm ((leads_neighbours hb ha).subset h)

theorem mem_canonical_iff {i cls : EntityId} (registry : Registry) :
    i ∈ (canonical axioms store).extension (.named cls) ↔
      cls ∈ Classification.closedTypes (.build registry axioms) store i := by
  simp only [Classification.mem_closedTypes_iff, Hierarchy.mem_closure_build_iff]
  exact Iff.rfl

theorem isModel_canonical
    (h : (Classification.classify registry axioms store).clashes = []) :
    (canonical axioms store).IsModel axioms store where
  member i cls hmem := ⟨cls, hmem, .refl⟩
  satisfies ax hax := by
    cases ax with
    | declaration entity => trivial
    | subClassOf sub sup =>
      exact subset_canonical (List.mem_flatMap.2 ⟨_, hax, List.mem_singleton.2 rfl⟩)
    | equivalentClasses classes =>
      exact eq_of_mem_neighbours fun a b hab =>
        subset_canonical (List.mem_flatMap.2 ⟨_, hax, hab⟩)
    | disjointClasses classes =>
      refine pairwise_iff_forall_mem_pairs.2 fun p hp => Set.disjoint_left.2 fun i hfst hsnd => ?_
      refine List.eq_nil_iff_forall_not_mem.1 h ⟨i, p⟩ (Classification.mem_findClashes_iff.2 ?_)
      exact ⟨mem_disjointPairs_iff.2 ⟨classes, hax, hp⟩, (mem_canonical_iff registry).1 hfst,
        (mem_canonical_iff registry).1 hsnd⟩

theorem IsModel.mem_of_mem_closedTypes {I : Interpretation} (h : I.IsModel axioms store)
    {i cls : EntityId} (hcls : cls ∈ Classification.closedTypes (.build registry axioms) store i) :
    I.individual i ∈ I.extension (.named cls) := by
  obtain ⟨asserted, hmem, hclosure⟩ := Classification.mem_closedTypes_iff.1 hcls
  exact h.subset_of_leads ((Hierarchy.mem_closure_build_iff _ _ _ _).1 hclosure)
    (h.member i asserted hmem)

theorem IsModel.clashes_eq_nil {I : Interpretation} (h : I.IsModel axioms store) :
    (Classification.classify registry axioms store).clashes = [] := by
  refine List.eq_nil_iff_forall_not_mem.2 fun clash hclash => ?_
  obtain ⟨hdisjoint, hfst, hsnd⟩ := Classification.mem_findClashes_iff.1 hclash
  obtain ⟨classes, hax, hp⟩ := mem_disjointPairs_iff.1 hdisjoint
  have hdisj := pairwise_iff_forall_mem_pairs.1 (h.satisfies _ hax) _ hp
  exact Set.disjoint_left.1 hdisj (h.mem_of_mem_closedTypes hfst) (h.mem_of_mem_closedTypes hsnd)

end Interpretation

/-- Classification finds an ontology consistent exactly if it has a model. -/
theorem classify_consistent_iff_exists_model (registry : Registry) (axioms : List Axiom)
    (store : FactStore) :
    (Classification.classify registry axioms store).consistent = true ↔
      ∃ I : Interpretation, I.IsModel axioms store := by
  rw [Classification.consistent_iff_clashes_eq_nil]
  constructor
  · intro h
    exact ⟨.canonical axioms store, Interpretation.isModel_canonical h⟩
  · rintro ⟨I, hI⟩
    exact hI.clashes_eq_nil

end HornOntology
