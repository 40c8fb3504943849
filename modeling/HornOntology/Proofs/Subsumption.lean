import HornOntology.Proofs.Hierarchy

set_option autoImplicit false

/-! # Subsumption is reachability

What the axioms state about inclusion is a graph over class expressions: an edge leads from a class
to one that contains it, and between any two classes that an axiom makes equivalent. The hierarchy
is built from fewer edges, those between neighbours in a list of equivalent classes; but the others
are paths of these, so nothing that can be reached is lost (`leads_iff_reaches`). Hence every
question to the hierarchy is answered by reachability between named classes, and the list of all
subsumptions is in order, because it is put together from closures in order
(`pairwise_subsumptions_build`). -/

namespace HornOntology

/-! ## The graph of the axioms -/

/-- There is a path from one expression to the other, each step of which some axiom states. -/
def Reaches (axioms : List Axiom) : ClassExpr → ClassExpr → Prop :=
  Relation.ReflTransGen fun a b => ∃ ax ∈ axioms, ax.Includes a b

/-- The inclusions from which the hierarchy is built reach what the axioms state. -/
theorem leads_iff_reaches {axioms : List Axiom} {a b : ClassExpr} :
    Leads (axioms.flatMap Axiom.inclusions) a b ↔ Reaches axioms a b := by
  constructor
  · intro h
    refine Relation.ReflTransGen.mono (fun x y hxy => ?_) a b h
    obtain ⟨ax, hax, hin⟩ := List.mem_flatMap.1 hxy
    exact ⟨ax, hax, ax.includes_of_mem_inclusions hin⟩
  · intro h
    induction h with
    | refl => exact .refl
    | tail _ hstep ih =>
      obtain ⟨ax, hax, hin⟩ := hstep
      exact ih.trans (hin.leads.mono fun i hi => List.mem_flatMap.2 ⟨ax, hax, hi⟩)

/-! ## Identifiers in order -/

theorem pairwise_sortIds (ids : List EntityId) :
    (sortIds ids).Pairwise (·.toNat < ·.toNat) := by
  have hsorted : (ids.mergeSort fun a b => decide (a ≤ b)).Pairwise fun a b =>
      decide (a ≤ b) = true := by
    refine List.pairwise_mergeSort (fun a b c hab hbc => ?_) (fun a b => ?_) ids
    · simp only [decide_eq_true_eq, EntityId.le_iff_toNat_le] at hab hbc ⊢
      omega
    · simp only [Bool.or_eq_true, decide_eq_true_eq, EntityId.le_iff_toNat_le]
      omega
  -- without repetitions the order is strict
  refine ((hsorted.sublist (eraseDups_sublist _)).and (nodup_eraseDups _)).imp fun {a b} h => ?_
  have hle : a.toNat ≤ b.toNat := EntityId.le_iff_toNat_le.1 (of_decide_eq_true h.1)
  exact Nat.lt_of_le_of_ne hle fun heq => h.2 (EntityId.toNat_inj heq)

namespace Hierarchy

variable {registry : Registry} {axioms : List Axiom}

theorem pairwise_closure_build (registry : Registry) (axioms : List Axiom) (cls : EntityId) :
    ((build registry axioms).closure cls).Pairwise (·.toNat < ·.toNat) := by
  rw [closure, Std.HashMap.getD_eq_getD_getElem?]
  by_cases hknown : ClassExpr.named cls ∈ (classGraph registry axioms).nodes
  · obtain ⟨place, hplace⟩ := Graph.exists_at_condense_iff.2 hknown
    rw [closures_build_of_at hplace]
    exact pairwise_sortIds _
  · rw [closures_build_of_not_mem hknown]
    exact List.pairwise_singleton _ _

/-- The subsumptions are ordered by the smaller class, and then by the larger one. -/
theorem pairwise_subsumptions_build (registry : Registry) (axioms : List Axiom) :
    (build registry axioms).subsumptions.Pairwise
      (Prod.Lex (·.toNat < ·.toNat) (·.toNat < ·.toNat)) := by
  rw [subsumptions, List.pairwise_flatMap]
  constructor
  · intro sub _
    rw [List.pairwise_map]
    exact ((pairwise_closure_build registry axioms sub).filter _).imp fun h => .right sub h
  · refine (pairwise_sortIds _).imp fun {sub sub'} hlt p hp p' hp' => ?_
    obtain ⟨sup, -, rfl⟩ := List.mem_map.1 hp
    obtain ⟨sup', -, rfl⟩ := List.mem_map.1 hp'
    exact .left sup sup' hlt

/-! ## The answers of a hierarchy -/

theorem mem_superclasses_iff {h : Hierarchy} {sub sup : EntityId} :
    sup ∈ h.superclasses sub ↔ sup ∈ h.closure sub ∧ sup ≠ sub := by
  rw [superclasses, List.mem_filter, decide_eq_true_iff]

theorem mem_subclasses_build_iff {sub sup : EntityId} :
    sub ∈ (build registry axioms).subclasses sup ↔
      sup ∈ (build registry axioms).closure sub ∧ sup ≠ sub := by
  rw [subclasses, List.mem_filter, Bool.and_eq_true, decide_eq_true_iff, List.contains_iff_mem]
  constructor
  · rintro ⟨-, hne, hsup⟩
    exact ⟨hsup, Ne.symm hne⟩
  · rintro ⟨hsup, hne⟩
    exact ⟨(mem_classes_build_of_ne hsup hne).1, Ne.symm hne, hsup⟩

/-- **A hierarchy answers by reachability.** One class is below another if the axioms lead from the
    first to the second, through complex expressions or not; classes are equivalent if they lead to
    each other; and the subsumptions are all pairs of different classes of which the first leads to
    the second, in order and each once. -/
theorem build_iff_reaches (registry : Registry) (axioms : List Axiom) :
    let h := build registry axioms
    let below (a b : EntityId) : Prop := Reaches axioms (.named a) (.named b)
    (∀ a b, (b ∈ h.closure a ↔ below a b) ∧ (h.isSubclassOf a b = true ↔ below a b) ∧
      (b ∈ h.equivalents a ↔ b ≠ a ∧ below a b ∧ below b a) ∧
      (a ∈ h.subclasses b ↔ b ∈ h.superclasses a) ∧
      (b ∈ h.superclasses a ↔ a ≠ b ∧ below a b) ∧
      ((a, b) ∈ h.subsumptions ↔ a ≠ b ∧ below a b)) ∧
    h.subsumptions.Pairwise (Prod.Lex (·.toNat < ·.toNat) (·.toNat < ·.toNat)) := by
  intro h below
  have hclosure (a b : EntityId) : b ∈ h.closure a ↔ below a b :=
    (mem_closure_build_iff registry axioms a b).trans leads_iff_reaches
  refine ⟨fun a b => ⟨hclosure a b, ?_, ?_, ?_, ?_, ?_⟩, pairwise_subsumptions_build _ _⟩
  · rw [isSubclassOf_build_iff, hclosure]
  · rw [mem_equivalents_build_iff, hclosure, hclosure, and_comm (a := below a b), and_assoc]
  · rw [mem_subclasses_build_iff, mem_superclasses_iff]
  · rw [mem_superclasses_iff, hclosure, and_comm, ne_comm]
  · rw [mem_subsumptions_build_iff, hclosure, and_comm, ne_comm]

end Hierarchy

end HornOntology
