import HornOntology.Hierarchy
import HornOntology.Proofs.Graph

set_option autoImplicit false

/-! # The hierarchy is reachability

The inclusions of the axioms make class expressions a graph, of which the hierarchy sees the
condensed form only. For each class it keeps the named classes of all components that its own
component leads to; since these are the components of what the class leads to, its closure holds
the named classes that can be reached from it (`mem_closure_build_iff`), whether the registry, the
axioms or neither know them. The named classes of its own component are those that it leads to and
back (`mem_equivalents_build_iff`). Neighbours in a list of equivalent classes are enough to
connect all of it (`leads_neighbours`). -/

namespace HornOntology

/-! ## The inclusions of an axiom -/

/-- The axiom states that the first expression is below the second, alone or together with the
    reverse. -/
def Axiom.Includes (a b : ClassExpr) : Axiom → Prop
  | subClassOf sub sup => a = sub ∧ b = sup
  | equivalentClasses classes => a ∈ classes ∧ b ∈ classes
  | declaration _ | disjointClasses _ => False

theorem mem_of_mem_neighbours {classes : List ClassExpr} {a b : ClassExpr}
    (h : (a, b) ∈ neighbours classes) : a ∈ classes ∧ b ∈ classes := by
  fun_induction neighbours classes with
  | case1 x y rest ih =>
    simp only [List.mem_cons, Prod.mk.injEq] at h ih ⊢
    grind
  | case2 => simp at h
  | case3 => simp at h

/-- The neighbours of a list connect its first element with all others, in both directions. -/
theorem leads_neighbours_head (first : ClassExpr) (rest : List ClassExpr) :
    ∀ e ∈ first :: rest, Leads (neighbours (first :: rest)) first e ∧
      Leads (neighbours (first :: rest)) e first := by
  induction rest generalizing first with
  | nil =>
    intro e he
    rw [List.mem_singleton.1 he]
    exact ⟨.refl, .refl⟩
  | cons second rest ih =>
    intro e he
    rcases List.mem_cons.1 he with rfl | he
    · exact ⟨.refl, .refl⟩
    · obtain ⟨hto, hback⟩ := ih second e he
      have hlater : neighbours (second :: rest) ⊆ neighbours (first :: second :: rest) := by
        intro i hi
        exact List.mem_cons_of_mem _ (List.mem_cons_of_mem _ hi)
      exact ⟨(hto.mono hlater).head (by simp [neighbours]),
        (hback.mono hlater).tail (by simp [neighbours])⟩

theorem leads_neighbours {classes : List ClassExpr} {a b : ClassExpr} (ha : a ∈ classes)
    (hb : b ∈ classes) : Leads (neighbours classes) a b := by
  cases classes with
  | nil => exact absurd ha List.not_mem_nil
  | cons first rest =>
    exact (leads_neighbours_head first rest a ha).2.trans (leads_neighbours_head first rest b hb).1

theorem Axiom.includes_of_mem_inclusions {ax : Axiom} {a b : ClassExpr}
    (h : (a, b) ∈ ax.inclusions) : ax.Includes a b := by
  cases ax with
  | declaration entity => simp [Axiom.inclusions] at h
  | disjointClasses classes => simp [Axiom.inclusions] at h
  | equivalentClasses classes => exact mem_of_mem_neighbours h
  | subClassOf sub sup => simpa [Axiom.inclusions, Includes] using h

theorem Axiom.Includes.leads {ax : Axiom} {a b : ClassExpr} (h : ax.Includes a b) :
    Leads ax.inclusions a b := by
  cases ax with
  | declaration entity => exact h.elim
  | disjointClasses classes => exact h.elim
  | equivalentClasses classes => exact leads_neighbours h.1 h.2
  | subClassOf sub sup =>
    refine .single ?_
    simp [Axiom.inclusions, h.1, h.2]

theorem Axiom.Includes.mem_expressions {ax : Axiom} {a b : ClassExpr} (h : ax.Includes a b) :
    a ∈ ax.expressions ∧ b ∈ ax.expressions := by
  cases ax with
  | declaration entity => exact h.elim
  | disjointClasses classes => exact h.elim
  | equivalentClasses classes => exact h
  | subClassOf sub sup => simp [Axiom.expressions, h.1, h.2]

/-! ## The classes of a hierarchy -/

theorem mem_sortIds {ids : List EntityId} {id : EntityId} : id ∈ sortIds ids ↔ id ∈ ids := by
  rw [sortIds, List.mem_eraseDups, List.mem_mergeSort]

theorem ClassExpr.named?_eq_some_iff {e : ClassExpr} {cls : EntityId} :
    e.named? = some cls ↔ e = .named cls := by
  cases e with
  | named c => simp [named?]
  | intersection parts => simp [named?]
  | hasValue property value => simp [named?]

section ClassGraph

variable {registry : Registry} {axioms : List Axiom}

theorem mem_nodes_classGraph_iff {e : ClassExpr} :
    e ∈ (classGraph registry axioms).nodes ↔
      (∃ cls ∈ registry.ofKind .cls, .named cls = e) ∨ ∃ ax ∈ axioms, e ∈ ax.expressions := by
  rw [classGraph, List.mem_eraseDups, List.mem_append, List.mem_map, List.mem_flatMap]

theorem endsInNodes_classGraph : (classGraph registry axioms).EndsInNodes := by
  intro a b h
  obtain ⟨ax, hax, hin⟩ := List.mem_flatMap.1 h
  obtain ⟨ha, hb⟩ := (Axiom.includes_of_mem_inclusions hin).mem_expressions
  exact ⟨mem_nodes_classGraph_iff.2 (Or.inr ⟨ax, hax, ha⟩),
    mem_nodes_classGraph_iff.2 (Or.inr ⟨ax, hax, hb⟩)⟩

end ClassGraph

namespace Hierarchy

section Entries

variable {condensed : Condensation ClassExpr} {outgoing : Grouping Nat (Nat × Nat)} {place : Nat}
  {cls : EntityId}

theorem mem_namedIn_iff : cls ∈ namedIn condensed place ↔ condensed.At place (.named cls) := by
  rw [namedIn, Array.getD_eq_getD_getElem?, List.mem_filterMap]
  simp only [ClassExpr.named?_eq_some_iff, Condensation.At]
  cases condensed.components[place]? with
  | none => simp
  | some component => simp

/-- The components that are found from a place are those that it leads to. -/
theorem mem_namedFrom_iff :
    cls ∈ namedFrom condensed condensed.graph.outgoing place ↔
      ∃ target, Leads condensed.graph.edges place target ∧ condensed.At target (.named cls) := by
  rw [namedFrom, mem_sortIds, List.mem_flatMap]
  simp only [Std.HashSet.mem_toList, Graph.mem_visit_iff, mem_namedIn_iff]

theorem entries_eq_map (condensed : Condensation ClassExpr) (outgoing : Grouping Nat (Nat × Nat))
    (place : Nat) :
    entries condensed outgoing place =
      (sortIds (namedIn condensed place)).map fun cls =>
        (cls, namedFrom condensed outgoing place, sortIds (namedIn condensed place)) := by
  unfold entries
  dsimp only
  split
  · next hempty => rw [List.isEmpty_iff.1 hempty, List.map_nil]
  · rfl

theorem mem_entries_iff {entry : EntityId × List EntityId × List EntityId} :
    entry ∈ entries condensed outgoing place ↔
      condensed.At place (.named entry.1) ∧
        entry.2 = (namedFrom condensed outgoing place, sortIds (namedIn condensed place)) := by
  rw [entries_eq_map, List.mem_map]
  simp only [mem_sortIds, mem_namedIn_iff]
  constructor
  · rintro ⟨cls, hcls, rfl⟩
    exact ⟨hcls, rfl⟩
  · rintro ⟨hcls, hentry⟩
    exact ⟨entry.1, hcls, by rw [← hentry]⟩

end Entries

variable {registry : Registry} {axioms : List Axiom} {cls : EntityId} {place : Nat}

/-- What a hierarchy is made of: each class with its closure and its group. -/
def allEntries (registry : Registry) (axioms : List Axiom) :
    List (EntityId × List EntityId × List EntityId) :=
  let condensed := (classGraph registry axioms).condense
  condensed.graph.nodes.flatMap (entries condensed condensed.graph.outgoing)

/-- Every class has one entry, since it stands in one component. -/
theorem pairwise_allEntries (registry : Registry) (axioms : List Axiom) :
    (allEntries registry axioms).Pairwise fun x y => (x.1 == y.1) = false := by
  rw [allEntries, List.pairwise_flatMap]
  constructor
  · intro place _
    rw [entries_eq_map, List.pairwise_map]
    exact (nodup_eraseDups _).imp fun hne => beq_false_of_ne hne
  · refine List.nodup_range.imp fun {i j} hne x hx y hy => beq_false_of_ne fun heq => hne ?_
    obtain ⟨hi, -⟩ := mem_entries_iff.1 hx
    obtain ⟨hj, -⟩ := mem_entries_iff.1 hy
    exact Graph.at_condense_unique hi (heq ▸ hj)

/-- What is kept for a class in the component at a place. -/
theorem getElem?_ofList_allEntries {β : Type} (f : List EntityId × List EntityId → β)
    (h : (classGraph registry axioms).condense.At place (.named cls)) :
    (Std.HashMap.ofList
        ((allEntries registry axioms).map fun entry => (entry.1, f entry.2)))[cls]? =
      some (f (namedFrom (classGraph registry axioms).condense
          (classGraph registry axioms).condense.graph.outgoing place,
        sortIds (namedIn (classGraph registry axioms).condense place))) := by
  refine Std.HashMap.getElem?_ofList_of_mem (beq_self_eq_true cls) ?_ ?_
  · rw [List.pairwise_map]
    exact pairwise_allEntries registry axioms
  · refine List.mem_map.2 ⟨(cls, _, _), List.mem_flatMap.2 ⟨place, ?_, ?_⟩, rfl⟩
    · obtain ⟨component, hcomponent, -⟩ := h
      exact List.mem_range.2 (Array.getElem?_eq_some_iff.1 hcomponent).1
    · exact mem_entries_iff.2 ⟨h, rfl⟩

/-- Nothing is kept for a class that neither the registry nor the axioms know. -/
theorem getElem?_ofList_allEntries_of_not_mem {β : Type} (f : List EntityId × List EntityId → β)
    (h : ClassExpr.named cls ∉ (classGraph registry axioms).nodes) :
    (Std.HashMap.ofList
        ((allEntries registry axioms).map fun entry => (entry.1, f entry.2)))[cls]? = none := by
  refine Std.HashMap.getElem?_ofList_of_contains_eq_false (Bool.eq_false_iff.2 fun hmem => h ?_)
  rw [List.map_map, List.contains_iff_mem, List.mem_map] at hmem
  obtain ⟨entry, hentry, rfl⟩ := hmem
  obtain ⟨place, -, hplace⟩ := List.mem_flatMap.1 hentry
  exact Graph.exists_at_condense_iff.1 ⟨place, (mem_entries_iff.1 hplace).1⟩

theorem closures_build_of_at (h : (classGraph registry axioms).condense.At place (.named cls)) :
    (build registry axioms).closures[cls]? =
      some (namedFrom (classGraph registry axioms).condense
        (classGraph registry axioms).condense.graph.outgoing place) :=
  getElem?_ofList_allEntries Prod.fst h

theorem closures_build_of_not_mem (h : ClassExpr.named cls ∉ (classGraph registry axioms).nodes) :
    (build registry axioms).closures[cls]? = none :=
  getElem?_ofList_allEntries_of_not_mem Prod.fst h

/-- The classes of a hierarchy are those that the registry or the axioms know. -/
theorem mem_classes_build_iff :
    cls ∈ (build registry axioms).classes ↔
      cls ∈ registry.ofKind .cls ∨ ∃ ax ∈ axioms, ClassExpr.named cls ∈ ax.expressions := by
  have hnodes : cls ∈ (build registry axioms).classes ↔
      ClassExpr.named cls ∈ (classGraph registry axioms).nodes := by
    rw [classes, mem_sortIds, Std.HashMap.mem_keys, Std.HashMap.mem_iff_isSome_getElem?]
    constructor
    · intro hsome
      by_contra hunknown
      rw [closures_build_of_not_mem hunknown] at hsome
      cases hsome
    · intro hknown
      obtain ⟨place, hplace⟩ := Graph.exists_at_condense_iff.2 hknown
      rw [closures_build_of_at hplace]
      rfl
  rw [hnodes, mem_nodes_classGraph_iff]
  simp only [ClassExpr.named.injEq, exists_eq_right]

theorem mem_classes_build_of_mem_expressions {ax : Axiom} (hax : ax ∈ axioms)
    (h : ClassExpr.named cls ∈ ax.expressions) : cls ∈ (build registry axioms).classes :=
  mem_classes_build_iff.2 (Or.inr ⟨ax, hax, h⟩)

/-! ## The closure -/

/-- The closure of a class that is known is looked up, and a class that is not has no other class
    to lead to. -/
theorem mem_closure_build_iff (registry : Registry) (axioms : List Axiom) (sub sup : EntityId) :
    sup ∈ (build registry axioms).closure sub ↔
      Leads (axioms.flatMap Axiom.inclusions) (.named sub) (.named sup) := by
  rw [closure, Std.HashMap.getD_eq_getD_getElem?]
  by_cases hknown : ClassExpr.named sub ∈ (classGraph registry axioms).nodes
  · obtain ⟨place, hplace⟩ := Graph.exists_at_condense_iff.2 hknown
    rw [closures_build_of_at hplace, Option.getD_some, mem_namedFrom_iff]
    constructor
    · rintro ⟨target, hpath, htarget⟩
      exact Graph.leads_of_leads_condense hplace htarget hpath
    · intro hpath
      have hsup := Graph.mem_nodes_of_leads endsInNodes_classGraph hknown hpath
      obtain ⟨target, htarget⟩ := Graph.exists_at_condense_iff.2 hsup
      exact ⟨target, (Graph.leads_condense_iff endsInNodes_classGraph hplace htarget).2 hpath,
        htarget⟩
  · rw [closures_build_of_not_mem hknown, Option.getD_none, List.mem_singleton]
    constructor
    · rintro rfl
      exact .refl
    · intro hpath
      rcases Relation.ReflTransGen.cases_head hpath with heq | ⟨e, hfirst, -⟩
      · exact (ClassExpr.named.inj heq).symm
      · exact absurd (endsInNodes_classGraph _ _ hfirst).1 hknown

theorem mem_closure_build_self (registry : Registry) (axioms : List Axiom) (cls : EntityId) :
    cls ∈ (build registry axioms).closure cls :=
  (mem_closure_build_iff registry axioms cls cls).2 .refl

theorem mem_closure_build_trans {sub mid sup : EntityId}
    (hmid : mid ∈ (build registry axioms).closure sub)
    (hsup : sup ∈ (build registry axioms).closure mid) :
    sup ∈ (build registry axioms).closure sub := by
  rw [mem_closure_build_iff] at hmid hsup ⊢
  exact hmid.trans hsup

/-- A class with another one above it is known, and so is the other one. -/
theorem mem_classes_build_of_ne {sub sup : EntityId}
    (hsup : sup ∈ (build registry axioms).closure sub) (hne : sup ≠ sub) :
    sub ∈ (build registry axioms).classes ∧ sup ∈ (build registry axioms).classes := by
  have hknown {a b : ClassExpr} (h : (a, b) ∈ axioms.flatMap Axiom.inclusions) {cls : EntityId}
      (hcls : a = .named cls ∨ b = .named cls) : cls ∈ (build registry axioms).classes := by
    obtain ⟨ax, hax, hin⟩ := List.mem_flatMap.1 h
    obtain ⟨ha, hb⟩ := (Axiom.includes_of_mem_inclusions hin).mem_expressions
    rcases hcls with rfl | rfl
    · exact mem_classes_build_of_mem_expressions hax ha
    · exact mem_classes_build_of_mem_expressions hax hb
  have hpath := (mem_closure_build_iff registry axioms sub sup).1 hsup
  -- the path has a first and a last inclusion, in which the two classes stand
  constructor
  · rcases Relation.ReflTransGen.cases_head hpath with heq | ⟨e, hfirst, -⟩
    · exact absurd (ClassExpr.named.inj heq).symm hne
    · exact hknown hfirst (Or.inl rfl)
  · rcases Relation.ReflTransGen.cases_tail hpath with heq | ⟨e, -, hlast⟩
    · exact absurd (ClassExpr.named.inj heq) hne
    · exact hknown hlast (Or.inr rfl)

/-! ## Equivalent classes -/

/-- The classes that share a component are those that lead to each other. -/
theorem mem_equivalents_build_iff {other : EntityId} :
    other ∈ (build registry axioms).equivalents cls ↔
      (other ∈ (build registry axioms).closure cls ∧ other ≠ cls) ∧
        cls ∈ (build registry axioms).closure other := by
  rw [equivalents, List.mem_filter, decide_eq_true_iff, and_right_comm]
  refine and_congr_left fun hne => ?_
  rw [Std.HashMap.getD_eq_getD_getElem?, mem_closure_build_iff, mem_closure_build_iff]
  by_cases hknown : ClassExpr.named cls ∈ (classGraph registry axioms).nodes
  · obtain ⟨place, hplace⟩ := Graph.exists_at_condense_iff.2 hknown
    have hgroup : (build registry axioms).groups[cls]? = _ :=
      getElem?_ofList_allEntries Prod.snd hplace
    rw [hgroup, Option.getD_some, mem_sortIds, mem_namedIn_iff,
      Graph.at_condense_iff_connected hplace]
    refine and_iff_right_of_imp fun hconnected => ?_
    exact Graph.mem_nodes_of_leads endsInNodes_classGraph hknown hconnected.1
  · have hgroup : (build registry axioms).groups[cls]? = none :=
      getElem?_ofList_allEntries_of_not_mem Prod.snd hknown
    rw [hgroup, Option.getD_none]
    refine iff_of_false List.not_mem_nil fun hconnected => ?_
    rcases Relation.ReflTransGen.cases_head hconnected.1 with heq | ⟨e, hfirst, -⟩
    · exact hne (ClassExpr.named.inj heq).symm
    · exact hknown (endsInNodes_classGraph _ _ hfirst).1

/-! ## The pairs of a hierarchy -/

theorem isSubclassOf_build_iff {sub sup : EntityId} :
    (build registry axioms).isSubclassOf sub sup = true ↔
      sup ∈ (build registry axioms).closure sub := by
  rw [isSubclassOf, Bool.or_eq_true, decide_eq_true_iff]
  constructor
  · rintro (rfl | hany)
    · exact mem_closure_build_self registry axioms sub
    · obtain ⟨closure, hclosure, hsup⟩ := (Option.any_eq_true _ _).1 hany
      rw [Hierarchy.closure, Std.HashMap.getD_eq_getD_getElem?, hclosure]
      exact List.contains_iff_mem.1 hsup
  · intro hsup
    rw [Hierarchy.closure, Std.HashMap.getD_eq_getD_getElem?] at hsup
    cases hclosure : (build registry axioms).closures[sub]? with
    | none =>
      rw [hclosure] at hsup
      exact Or.inl (List.mem_singleton.1 hsup).symm
    | some closure =>
      rw [hclosure] at hsup
      exact Or.inr (List.contains_iff_mem.2 hsup)

/-- The pairs of a hierarchy are its closures, less each class itself. -/
theorem mem_subsumptions_build_iff {sub sup : EntityId} :
    (sub, sup) ∈ (build registry axioms).subsumptions ↔
      sup ∈ (build registry axioms).closure sub ∧ sup ≠ sub := by
  simp only [subsumptions, superclasses, List.mem_flatMap, List.mem_map, List.mem_filter,
    decide_eq_true_eq, Prod.mk.injEq]
  constructor
  · rintro ⟨_, -, _, hsup, rfl, rfl⟩
    exact hsup
  · rintro ⟨hsup, hne⟩
    exact ⟨sub, (mem_classes_build_of_ne hsup hne).1, sup, ⟨hsup, hne⟩, rfl, rfl⟩

end Hierarchy

end HornOntology
