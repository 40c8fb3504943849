import HornOntology.Graph
import HornOntology.Proofs.Lists
import Mathlib.Logic.Relation

set_option autoImplicit false

/-! # Search and condensation

The search `visit` has as its fuel the number of edges and one more, which is enough: every step
takes a node from the waiting list, and what a visit adds to that list are the edges of a node that
was not visited before. So it finds what can be reached and nothing else (`mem_visit_iff`).

The components that are found have their nodes in common with no other, and the nodes of each are
those that lead to each other (`Found.Sorted`): when a node has no place yet, none of the nodes
that it leads to and back has one. So every node of a graph stands in one component of the
condensed graph (`exists_at_condense_iff`), and a path between components is a path between their
nodes (`leads_condense_iff`): inside a component one can always go on to where the next edge
begins. -/

namespace HornOntology

/-! ## Paths -/

/-- There is a path of edges from one node to the other. -/
def Leads {ν : Type} (edges : List (ν × ν)) : ν → ν → Prop :=
  Relation.ReflTransGen fun a b => (a, b) ∈ edges

namespace Leads

variable {ν : Type} {edges edges' : List (ν × ν)} {a b : ν}

theorem mono (hsub : edges ⊆ edges') (h : Leads edges a b) : Leads edges' a b :=
  Relation.ReflTransGen.mono (fun _ _ hab => hsub hab) a b h

theorem swap_iff : Leads (edges.map Prod.swap) a b ↔ Leads edges b a := by
  have hstep : (fun x y => (x, y) ∈ edges.map Prod.swap) =
      Function.swap fun x y => (x, y) ∈ edges := by
    funext x y
    simp [Function.swap]
  rw [Leads, hstep, Relation.reflTransGen_swap]
  rfl

end Leads

namespace Graph

variable {ν : Type} [DecidableEq ν] [Hashable ν] {g : Graph ν}

/-! ## The search -/

theorem mem_outgoing_iff {a b : ν} :
    b ∈ (g.outgoing.get a).toList.map Prod.snd ↔ (a, b) ∈ g.edges := by
  rw [outgoing, Grouping.get_ofList, List.mem_map]
  constructor
  · rintro ⟨⟨x, y⟩, hmem, rfl⟩
    obtain ⟨hin, hx⟩ := List.mem_filter.1 hmem
    rwa [← eq_of_beq hx]
  · intro hin
    exact ⟨(a, b), List.mem_filter.2 ⟨hin, by simp⟩, rfl⟩

theorem leads_of_mem_visit (fuel : Nat) {waiting : List ν} {visited : Std.HashSet ν} {node : ν}
    (h : node ∈ visit g.outgoing fuel waiting visited) :
    node ∈ visited ∨ ∃ w ∈ waiting, Leads g.edges w node := by
  induction fuel generalizing waiting visited with
  | zero => exact Or.inl h
  | succ fuel ih =>
    cases waiting with
    | nil => exact Or.inl h
    | cons first waiting =>
      rw [visit] at h
      split at h
      · rcases ih h with hvisited | ⟨w, hw, hpath⟩
        · exact Or.inl hvisited
        · exact Or.inr ⟨w, List.mem_cons_of_mem _ hw, hpath⟩
      · rcases ih h with hvisited | ⟨w, hw, hpath⟩
        · rcases Std.HashSet.mem_insert.1 hvisited with heq | hold
          · exact Or.inr ⟨first, List.mem_cons_self, eq_of_beq heq ▸ Relation.ReflTransGen.refl⟩
          · exact Or.inl hold
        · rcases List.mem_append.1 hw with htarget | hold
          · exact Or.inr ⟨first, List.mem_cons_self, hpath.head (mem_outgoing_iff.1 htarget)⟩
          · exact Or.inr ⟨w, List.mem_cons_of_mem _ hold, hpath⟩

/-- The edges whose beginning was not visited. -/
def unvisited (edges : List (ν × ν)) (visited : Std.HashSet ν) : List (ν × ν) :=
  edges.filter fun edge => !visited.contains edge.1

theorem length_unvisited_insert (edges : List (ν × ν)) {visited : Std.HashSet ν} {node : ν}
    (hnode : visited.contains node = false) :
    (edges.filter fun edge => edge.1 == node).length +
        (unvisited edges (visited.insert node)).length =
      (unvisited edges visited).length := by
  simp only [unvisited, Std.HashSet.contains_insert]
  induction edges with
  | nil => rfl
  | cons edge edges ih =>
    by_cases hedge : edge.1 = node
    · simp only [List.filter_cons, hedge, hnode, beq_self_eq_true, Bool.true_or, Bool.not_true,
        Bool.not_false, if_true, Bool.false_eq_true, if_false, List.length_cons, ← ih]
      omega
    · have hne : (node == edge.1) = false := beq_false_of_ne (Ne.symm hedge)
      have hne' : (edge.1 == node) = false := beq_false_of_ne hedge
      simp only [List.filter_cons, hne, hne', Bool.false_or, Bool.false_eq_true, if_false]
      cases visited.contains edge.1 with
      | true => simpa using ih
      | false =>
        simp only [Bool.not_false, if_true, List.length_cons, ← ih]
        omega

/-- If there is fuel for what waits and for what may still have to wait, the search ends with all
    of it visited, and nothing leads out of what it has visited. -/
theorem visit_closed (fuel : Nat) {waiting : List ν} {visited : Std.HashSet ν}
    (hfuel : waiting.length + (unvisited g.edges visited).length ≤ fuel)
    (hout : ∀ a b, (a, b) ∈ g.edges → a ∈ visited → b ∈ visited ∨ b ∈ waiting) :
    (∀ node, node ∈ visited ∨ node ∈ waiting → node ∈ visit g.outgoing fuel waiting visited) ∧
      ∀ a b, (a, b) ∈ g.edges → a ∈ visit g.outgoing fuel waiting visited →
        b ∈ visit g.outgoing fuel waiting visited := by
  -- each round takes one node from the front, and what a first visit puts there is no longer
  -- counted as unvisited
  induction fuel generalizing waiting visited with
  | zero =>
    obtain rfl : waiting = [] := List.length_eq_zero_iff.1 (by omega)
    simpa [visit] using hout
  | succ fuel ih =>
    cases waiting with
    | nil => simpa [visit] using hout
    | cons first waiting =>
      rw [List.length_cons] at hfuel
      rw [visit]
      split
      · next hfirst =>
        have hmem : first ∈ visited := Std.HashSet.mem_iff_contains.2 hfirst
        obtain ⟨hall, hclosed⟩ := @ih waiting visited (by omega) (fun a b hab ha => by
          rcases hout a b hab ha with hb | hb
          · exact Or.inl hb
          · rcases List.mem_cons.1 hb with rfl | hb
            · exact Or.inl hmem
            · exact Or.inr hb)
        refine ⟨fun node hnode => hall node ?_, hclosed⟩
        rcases hnode with hnode | hnode
        · exact Or.inl hnode
        · rcases List.mem_cons.1 hnode with rfl | hnode
          · exact Or.inl hmem
          · exact Or.inr hnode
      · next hfirst =>
        have hcount := length_unvisited_insert g.edges (Bool.eq_false_iff.2 hfirst)
        have hlength : ((g.outgoing.get first).toList.map Prod.snd ++ waiting).length =
            (g.edges.filter fun edge => edge.1 == first).length + waiting.length := by
          rw [List.length_append, List.length_map, outgoing, Grouping.get_ofList]
        obtain ⟨hall, hclosed⟩ := @ih ((g.outgoing.get first).toList.map Prod.snd ++ waiting)
          (visited.insert first) (by omega) (fun a b hab ha => by
            rcases Std.HashSet.mem_insert.1 ha with heq | ha
            · rw [← eq_of_beq heq] at hab
              exact Or.inr (List.mem_append_left _ (mem_outgoing_iff.2 hab))
            · rcases hout a b hab ha with hb | hb
              · exact Or.inl (Std.HashSet.mem_insert.2 (Or.inr hb))
              · rcases List.mem_cons.1 hb with rfl | hb
                · exact Or.inl Std.HashSet.mem_insert_self
                · exact Or.inr (List.mem_append_right _ hb))
        refine ⟨fun node hnode => hall node ?_, hclosed⟩
        rcases hnode with hnode | hnode
        · exact Or.inl (Std.HashSet.mem_insert.2 (Or.inr hnode))
        · rcases List.mem_cons.1 hnode with rfl | hnode
          · exact Or.inl Std.HashSet.mem_insert_self
          · exact Or.inr (List.mem_append_right _ hnode)

/-- From one node the search visits what can be reached from it, and nothing else. -/
theorem mem_visit_iff (g : Graph ν) (start node : ν) :
    node ∈ visit g.outgoing g.searchFuel [start] ∅ ↔ Leads g.edges start node := by
  constructor
  · intro h
    rcases leads_of_mem_visit _ h with hempty | ⟨w, hw, hpath⟩
    · exact absurd hempty Std.HashSet.not_mem_empty
    · rwa [List.mem_singleton.1 hw] at hpath
  · intro hpath
    have hcount : (unvisited g.edges ∅).length ≤ g.edges.length := List.length_filter_le _ _
    obtain ⟨hall, hclosed⟩ := @visit_closed _ _ _ g g.searchFuel [start] ∅
      (by rw [List.length_singleton, searchFuel]; omega)
      (fun a b _ ha => absurd ha Std.HashSet.not_mem_empty)
    induction hpath with
    | refl => exact hall start (Or.inr List.mem_cons_self)
    | tail _ hstep ih => exact hclosed _ _ hstep ih

/-! ## Components -/

/-- The two nodes lead to each other. -/
def Connected (g : Graph ν) (a b : ν) : Prop := Leads g.edges a b ∧ Leads g.edges b a

namespace Connected

omit [DecidableEq ν] [Hashable ν]

variable {a b c : ν}

theorem refl (g : Graph ν) (a : ν) : g.Connected a a := ⟨.refl, .refl⟩

theorem symm (h : g.Connected a b) : g.Connected b a := ⟨h.2, h.1⟩

theorem trans (hab : g.Connected a b) (hbc : g.Connected b c) : g.Connected a c :=
  ⟨hab.1.trans hbc.1, hbc.2.trans hab.2⟩

end Connected

theorem mem_component_iff {node other : ν} :
    other ∈ g.component g.outgoing g.reverse.outgoing node ↔
      other ∈ g.nodes ∧ g.Connected node other := by
  have hfuel : g.searchFuel = g.reverse.searchFuel := by
    simp [searchFuel, reverse]
  rw [component, List.mem_filter, Bool.and_eq_true, ← Std.HashSet.mem_iff_contains,
    ← Std.HashSet.mem_iff_contains, mem_visit_iff, hfuel, mem_visit_iff, reverse, Leads.swap_iff]
  rfl

namespace Found

/-- The places are those of the components, and every component is that of one of its nodes. -/
structure Sorted (g : Graph ν) (found : Found ν) : Prop where
  place_iff : ∀ (node : ν) (place : Nat), found.place[node]? = some place ↔
    ∃ component, found.components[place]? = some component ∧ node ∈ component
  connected : ∀ component ∈ found.components, ∃ node ∈ g.nodes,
    ∀ other, other ∈ component ↔ other ∈ g.nodes ∧ g.Connected node other

theorem sorted_empty (g : Graph ν) : Sorted g ⟨#[], ∅⟩ := by
  constructor <;> simp

theorem place_add (found : Found ν) (component : List ν) (node : ν) :
    (found.add component).place[node]? =
      if node ∈ component then some found.components.size else found.place[node]? := by
  have hfold (place : Std.HashMap ν Nat) :
      (component.foldl (fun place node => place.insert node found.components.size) place)[node]? =
        if node ∈ component then some found.components.size else place[node]? := by
    induction component generalizing place with
    | nil => simp
    | cons first rest ih =>
      rw [List.foldl_cons, ih, Std.HashMap.getElem?_insert]
      by_cases hrest : node ∈ rest
      · simp [hrest]
      · simp only [hrest, if_false, beq_iff_eq, List.mem_cons, or_false]
        simp only [eq_comm]
  exact hfold found.place

/-- A node without a place has none of the nodes of its component among those that were found. -/
theorem Sorted.add {found : Found ν} (h : Sorted g found) {node : ν} (hnode : node ∈ g.nodes)
    (hnew : found.place[node]? = none) :
    Sorted g (found.add (g.component g.outgoing g.reverse.outgoing node)) := by
  constructor
  · intro other place
    have hold (hother : other ∈ g.component g.outgoing g.reverse.outgoing node)
        (component : List ν) (hcomponent : found.components[place]? = some component) :
        other ∉ component := by
      intro hmem
      obtain ⟨first, -, hfirst⟩ := h.connected component (Array.mem_of_getElem? hcomponent)
      have hconnected := ((hfirst other).1 hmem).2.trans (mem_component_iff.1 hother).2.symm
      have hplace := (h.place_iff node place).2
        ⟨component, hcomponent, (hfirst node).2 ⟨hnode, hconnected⟩⟩
      rw [hnew] at hplace
      cases hplace
    rw [place_add, Found.add, Array.getElem?_push]
    by_cases hother : other ∈ g.component g.outgoing g.reverse.outgoing node
    · rw [if_pos hother]
      split
      · next hplace => simp [hplace, hother]
      · next hplace =>
        constructor
        · intro heq
          exact absurd (Option.some.inj heq).symm hplace
        · rintro ⟨component, hcomponent, hmem⟩
          exact absurd hmem (hold hother component hcomponent)
    · rw [if_neg hother, h.place_iff]
      split
      · next hplace =>
        simp [hplace, hother]
      · rfl
  · intro component hcomponent
    rcases Array.mem_push.1 hcomponent with hbefore | rfl
    · exact h.connected component hbefore
    · exact ⟨node, hnode, fun _ => mem_component_iff⟩

end Found

/-- A step keeps the places of nodes, and gives its own node one. -/
theorem sorted_collect {found : Found ν} (h : Found.Sorted g found) {node : ν}
    (hnode : node ∈ g.nodes) :
    let next := g.collect g.outgoing g.reverse.outgoing found node
    Found.Sorted g next ∧ node ∈ next.place ∧ ∀ other ∈ found.place, other ∈ next.place := by
  intro next
  by_cases hold : found.place.contains node = true
  · have hnext : next = found := if_pos hold
    rw [hnext]
    exact ⟨h, Std.HashMap.mem_iff_contains.2 hold, fun _ hother => hother⟩
  · have hnext : next = found.add (g.component g.outgoing g.reverse.outgoing node) := if_neg hold
    have hself : node ∈ g.component g.outgoing g.reverse.outgoing node :=
      mem_component_iff.2 ⟨hnode, .refl g node⟩
    rw [hnext]
    refine ⟨h.add hnode ?_, ?_, fun other hother => ?_⟩
    · exact Std.HashMap.getElem?_eq_none (by simpa using hold)
    · rw [Std.HashMap.mem_iff_isSome_getElem?, Found.place_add, if_pos hself]
      rfl
    · rw [Std.HashMap.mem_iff_isSome_getElem?, Found.place_add]
      split
      · rfl
      · exact Std.HashMap.mem_iff_isSome_getElem?.1 hother

theorem sorted_foldl_collect {nodes : List ν} (hnodes : ∀ node ∈ nodes, node ∈ g.nodes)
    {found : Found ν} (h : Found.Sorted g found) :
    let last := nodes.foldl (g.collect g.outgoing g.reverse.outgoing) found
    Found.Sorted g last ∧ (∀ node ∈ nodes, node ∈ last.place) ∧
      ∀ other ∈ found.place, other ∈ last.place := by
  induction nodes generalizing found with
  | nil => exact ⟨h, by simp, fun _ hother => hother⟩
  | cons node nodes ih =>
    rw [List.forall_mem_cons] at hnodes
    obtain ⟨hsorted, hplaced, hkept⟩ := sorted_collect h hnodes.1
    obtain ⟨hlast, hrest, hkept'⟩ := ih hnodes.2 hsorted
    exact ⟨hlast, List.forall_mem_cons.2 ⟨hkept' node hplaced, hrest⟩,
      fun other hother => hkept' other (hkept other hother)⟩

theorem sorted_findComponents (g : Graph ν) : Found.Sorted g g.findComponents :=
  (sorted_foldl_collect (fun _ h => h) (Found.sorted_empty g)).1

theorem mem_place_findComponents {node : ν} (h : node ∈ g.nodes) :
    node ∈ g.findComponents.place :=
  (sorted_foldl_collect (fun _ h => h) (Found.sorted_empty g)).2.1 node h

end Graph

/-! ## The condensed graph -/

/-- A node stands in the component at a place. -/
def Condensation.At {ν : Type} (condensed : Condensation ν) (place : Nat) (node : ν) : Prop :=
  ∃ component, condensed.components[place]? = some component ∧ node ∈ component

namespace Graph

variable {ν : Type} [DecidableEq ν] [Hashable ν] {g : Graph ν} {a b : ν} {i j : Nat}

theorem at_condense_iff : g.condense.At i a ↔ g.findComponents.place[a]? = some i :=
  ((sorted_findComponents g).place_iff a i).symm

theorem at_condense_unique (hi : g.condense.At i a) (hj : g.condense.At j a) : i = j := by
  rw [at_condense_iff] at hi hj
  exact Option.some.inj (hi.symm.trans hj)

/-- The nodes of a component are those that are connected with one of them. -/
theorem at_condense_iff_connected (ha : g.condense.At i a) :
    g.condense.At i b ↔ b ∈ g.nodes ∧ g.Connected a b := by
  obtain ⟨component, hcomponent, hmem⟩ := ha
  obtain ⟨node, -, hconnected⟩ :=
    (sorted_findComponents g).connected component (Array.mem_of_getElem? hcomponent)
  have hnode := ((hconnected a).1 hmem).2
  constructor
  · rintro ⟨component', hcomponent', hb⟩
    rw [hcomponent] at hcomponent'
    cases hcomponent'
    obtain ⟨hnodes, hb⟩ := (hconnected b).1 hb
    exact ⟨hnodes, hnode.symm.trans hb⟩
  · rintro ⟨hnodes, hb⟩
    exact ⟨component, hcomponent, (hconnected b).2 ⟨hnodes, hnode.trans hb⟩⟩

/-- Every node of a graph has its place in the condensed graph, and nothing else has. -/
theorem exists_at_condense_iff : (∃ i, g.condense.At i a) ↔ a ∈ g.nodes := by
  constructor
  · rintro ⟨i, ha⟩
    exact ((at_condense_iff_connected ha).1 ha).1
  · intro ha
    have hplace := Std.HashMap.mem_iff_isSome_getElem?.1 (mem_place_findComponents ha)
    obtain ⟨i, hi⟩ := Option.isSome_iff_exists.1 hplace
    exact ⟨i, at_condense_iff.2 hi⟩

/-- The edges between components are those between nodes of different ones. -/
theorem mem_edges_condense_iff :
    (i, j) ∈ g.condense.graph.edges ↔
      i ≠ j ∧ ∃ a b, (a, b) ∈ g.edges ∧ g.condense.At i a ∧ g.condense.At j b := by
  have hedge (edge : ν × ν) : g.findComponents.edge? edge = some (i, j) ↔
      i ≠ j ∧ g.condense.At i edge.1 ∧ g.condense.At j edge.2 := by
    rw [at_condense_iff, at_condense_iff]
    unfold Found.edge?
    cases hsource : g.findComponents.place[edge.1]? with
    | none => simp
    | some source =>
      cases htarget : g.findComponents.place[edge.2]? with
      | none => simp
      | some target =>
        simp only [Option.bind_eq_bind, Option.bind_some, Option.some.injEq]
        split
        · next heq =>
          subst heq
          simp only [reduceCtorEq, false_iff]
          rintro ⟨hne, rfl, rfl⟩
          exact hne rfl
        · next hne =>
          simp only [Option.some.injEq, Prod.mk.injEq]
          constructor
          · rintro ⟨rfl, rfl⟩
            exact ⟨hne, rfl, rfl⟩
          · rintro ⟨-, hi, hj⟩
            exact ⟨hi, hj⟩
  simp only [condense, List.mem_eraseDups, List.mem_filterMap, hedge, Prod.exists]
  constructor
  · rintro ⟨a, b, hab, hne, ha, hb⟩
    exact ⟨hne, a, b, hab, ha, hb⟩
  · rintro ⟨hne, a, b, hab, ha, hb⟩
    exact ⟨a, b, hab, hne, ha, hb⟩

/-- Every edge joins nodes of the graph. -/
def EndsInNodes (g : Graph ν) : Prop := ∀ a b, (a, b) ∈ g.edges → a ∈ g.nodes ∧ b ∈ g.nodes

theorem leads_of_leads_condense (ha : g.condense.At i a) (hb : g.condense.At j b)
    (h : Leads g.condense.graph.edges i j) : Leads g.edges a b := by
  induction h generalizing b with
  | refl => exact ((at_condense_iff_connected ha).1 hb).2.1
  | tail _ hstep ih =>
    obtain ⟨-, c, d, hcd, hc, hd⟩ := mem_edges_condense_iff.1 hstep
    have hback := ((at_condense_iff_connected hd).1 hb).2.1
    exact ((ih hc).tail hcd).trans hback

theorem leads_condense_of_leads (hg : g.EndsInNodes) (ha : g.condense.At i a)
    (hb : g.condense.At j b) (h : Leads g.edges a b) : Leads g.condense.graph.edges i j := by
  induction h generalizing j with
  | refl =>
    rw [at_condense_unique ha hb]
    exact .refl
  | @tail c d _ hstep ih =>
    obtain ⟨k, hk⟩ := exists_at_condense_iff.2 (hg c d hstep).1
    by_cases hkj : k = j
    · exact hkj ▸ ih hk
    · exact (ih hk).tail (mem_edges_condense_iff.2 ⟨hkj, c, d, hstep, hk, hb⟩)

/-- A path between components is a path between their nodes. -/
theorem leads_condense_iff (hg : g.EndsInNodes) (ha : g.condense.At i a)
    (hb : g.condense.At j b) : Leads g.condense.graph.edges i j ↔ Leads g.edges a b :=
  ⟨leads_of_leads_condense ha hb, leads_condense_of_leads hg ha hb⟩

omit [DecidableEq ν] [Hashable ν] in
/-- A path from a node of the graph ends in one. -/
theorem mem_nodes_of_leads (hg : g.EndsInNodes) (ha : a ∈ g.nodes) (h : Leads g.edges a b) :
    b ∈ g.nodes := by
  rcases Relation.ReflTransGen.cases_tail h with heq | ⟨c, -, hlast⟩
  · exact heq ▸ ha
  · exact (hg c b hlast).2

end Graph

end HornOntology
