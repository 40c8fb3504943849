import HornOntology.Proofs.Matching

set_option autoImplicit false

/-! # Plans and conclusions

A plan is the body in another order (`plan_perm`), and in the plan every comparison comes after
the atoms that bind its variables, unless no atom of the body binds them (`inOrder_plan_iff`). So
matching the plan finds exactly the valuations at which the rule fires, and what a rule concludes
from a store are its consequences from the stored facts (`mem_conclusions_iff`). -/

namespace HornOntology

/-! ## Plans -/

section Plan

variable {κ : Type}

theorem isReady_iff {bound : List Variable} {atom : Atom κ} :
    atom.isReady bound = true ↔ ∀ v ∈ atom.vars, v ∈ bound := by
  simp [Atom.isReady]

theorem planFrom_perm (bound : List Variable) (pending body : List (Atom κ)) :
    (planFrom bound pending body).Perm (pending ++ body) := by
  induction body generalizing bound pending with
  | nil =>
    rw [planFrom, List.append_nil]
    exact List.filter_append_perm _ _
  | cons atom rest ih =>
    rw [planFrom]
    split
    · -- the waiting atoms are cut in two, with the new one between the parts
      have hsplit := List.filter_append_perm (Atom.isReady bound) pending
      refine (((ih _ _).cons atom).append_left _).trans (List.perm_middle.trans ?_)
      rw [← List.append_assoc]
      exact ((hsplit.append_right rest).cons atom).trans List.perm_middle.symm
    · refine (ih bound (pending ++ [atom])).trans ?_
      rw [List.append_assoc, List.singleton_append]

theorem plan_perm (body : List (Atom κ)) : (plan body).Perm body :=
  planFrom_perm [] [] body

/-- Comparisons that can run already make no difference to what comes after them. -/
theorem inOrder_ready_append_iff {bound : List Variable} {builtins : List (Atom κ)}
    (hbuiltins : ∀ atom ∈ builtins, atom.isRelational = false) (rest : List (Atom κ)) :
    InOrder bound (builtins.filter (Atom.isReady bound) ++ rest) ↔ InOrder bound rest := by
  induction builtins with
  | nil => simp
  | cons atom builtins ih =>
    rw [List.forall_mem_cons] at hbuiltins
    by_cases hready : atom.isReady bound = true
    · simp only [List.filter_cons_of_pos hready, List.cons_append, InOrder, hbuiltins.1,
        Bool.false_eq_true, if_false, ih hbuiltins.2]
      exact and_iff_right (isReady_iff.1 hready)
    · rw [List.filter_cons_of_neg hready]
      exact ih hbuiltins.2

theorem inOrder_builtins_iff {bound : List Variable} {builtins : List (Atom κ)}
    (hbuiltins : ∀ atom ∈ builtins, atom.isRelational = false) :
    InOrder bound builtins ↔ ∀ atom ∈ builtins, ∀ v ∈ atom.vars, v ∈ bound := by
  induction builtins with
  | nil => simp [InOrder]
  | cons atom builtins ih =>
    rw [List.forall_mem_cons] at hbuiltins
    simp only [InOrder, hbuiltins.1, Bool.false_eq_true, if_false, ih hbuiltins.2,
      List.forall_mem_cons]

/-- Of the atoms that wait, those that can run already ask for nothing more. -/
theorem forall_waiting_iff (bound more : List Variable) (pending : List (Atom κ)) :
    (∀ atom ∈ pending.filter (fun a => !a.isReady bound), ∀ v ∈ atom.vars, v ∈ bound ++ more) ↔
      ∀ atom ∈ pending, ∀ v ∈ atom.vars, v ∈ bound ++ more := by
  constructor
  · intro h atom hatom v hv
    by_cases hready : atom.isReady bound = true
    · exact List.mem_append_left _ (isReady_iff.1 hready v hv)
    · exact h atom (List.mem_filter.2 ⟨hatom, by simpa using hready⟩) v hv
  · intro h atom hatom
    exact h atom (List.mem_of_mem_filter hatom)

/-- A plan is in order exactly if every comparison finds its variables somewhere in the body. -/
theorem inOrder_planFrom_iff (bound : List Variable) {pending : List (Atom κ)}
    (hpending : ∀ atom ∈ pending, atom.isRelational = false) (body : List (Atom κ)) :
    InOrder bound (planFrom bound pending body) ↔
      ∀ atom ∈ pending ++ body, ∀ v ∈ atom.vars, v ∈ bound ++ boundVariables body := by
  induction body generalizing bound pending with
  | nil =>
    have hwaiting : ∀ atom ∈ pending.filter (fun a => !a.isReady bound),
        atom.isRelational = false :=
      fun atom hatom => hpending atom (List.mem_of_mem_filter hatom)
    rw [planFrom, inOrder_ready_append_iff hpending, inOrder_builtins_iff hwaiting]
    simpa [boundVariables] using forall_waiting_iff bound [] pending
  | cons atom rest ih =>
    rw [planFrom]
    split
    · next hrel =>
      have hbound : bound ++ boundVariables (atom :: rest) =
          (bound ++ atom.vars) ++ boundVariables rest := by
        simp [boundVariables, hrel]
      have hwaiting : ∀ atom ∈ pending.filter (fun a => !a.isReady bound),
          atom.isRelational = false :=
        fun atom hatom => hpending atom (List.mem_of_mem_filter hatom)
      -- a class or property atom binds its own variables and so asks for none
      have hself : ∀ v ∈ atom.vars, v ∈ (bound ++ atom.vars) ++ boundVariables rest :=
        fun v hv => List.mem_append_left _ (List.mem_append_right _ hv)
      rw [inOrder_ready_append_iff hpending, InOrder, if_pos hrel, ih _ hwaiting, hbound,
        List.forall_mem_append, List.forall_mem_append, List.forall_mem_cons]
      simp only [List.append_assoc] at hself ⊢
      rw [forall_waiting_iff]
      exact and_congr_right fun _ => (and_iff_right hself).symm
    · next hrel =>
      have hbound : boundVariables (atom :: rest) = boundVariables rest := by
        simp [boundVariables, hrel]
      have hpending' : ∀ a ∈ pending ++ [atom], a.isRelational = false := by
        intro a ha
        rcases List.mem_append.1 ha with ha | ha
        · exact hpending a ha
        · rw [List.mem_singleton.1 ha]
          simpa using hrel
      rw [ih bound hpending', hbound, List.append_assoc, List.singleton_append]

theorem inOrder_plan_iff (body : List (Atom κ)) :
    InOrder [] (plan body) ↔
      ∀ atom ∈ body, ∀ v ∈ atom.vars, v ∈ boundVariables body := by
  simpa [plan] using @inOrder_planFrom_iff κ [] [] (by simp) body

end Plan

/-! ## Conclusions -/

theorem Binding.Agrees.factAt_of_ground {b : Binding} {σ : Valuation} (hag : b.Agrees σ)
    {atom : Atom EntityId} {f : Fact} (h : atom.ground b = some f) : atom.factAt σ = some f := by
  cases atom with
  | member cls arg =>
    obtain ⟨i, hi, hf⟩ := Option.bind_eq_some_iff.1 h
    cases hf
    rw [Atom.factAt, hag.resolve? hi]
  | link property subject object =>
    obtain ⟨s, hs, hrest⟩ := Option.bind_eq_some_iff.1 h
    obtain ⟨o, ho, hf⟩ := Option.bind_eq_some_iff.1 hrest
    cases hf
    rw [Atom.factAt, hag.resolve? hs, hag.resolve? ho]
  | builtin op args => simp [Atom.ground] at h

/-- Under a binding that covers its variables, an atom states a fact whenever it states one at
    all. -/
theorem Binding.Agrees.ground_of_factAt {b : Binding} {σ : Valuation} (hag : b.Agrees σ)
    {atom : Atom EntityId} (hbound : ∀ v ∈ atom.vars, b.isBound v = true) {f : Fact}
    (h : atom.factAt σ = some f) : atom.ground b = some f := by
  have hresolve {t : Term EntityId} (ht : t ∈ atom.terms) : b.resolve? t = some (t.valueAt σ) := by
    cases t with
    | const c => rfl
    | var v =>
      have hv : v ∈ atom.vars := List.mem_filterMap.2 ⟨_, ht, rfl⟩
      obtain ⟨id, hid⟩ := Binding.isBound_iff.1 (hbound v hv)
      rw [Binding.resolve?, hid, Term.valueAt, hag v id hid]
  cases atom with
  | member cls arg =>
    have harg := hresolve (t := arg) (by simp [Atom.terms])
    simpa [Atom.ground, Atom.factAt, harg] using h
  | link property subject object =>
    have hsubject := hresolve (t := subject) (by simp [Atom.terms])
    have hobject := hresolve (t := object) (by simp [Atom.terms])
    simpa [Atom.ground, Atom.factAt, hsubject, hobject] using h
  | builtin op args => simp [Atom.factAt] at h

namespace Matcher

variable (m : Matcher)

/-- Some solution of the plan agrees with a valuation exactly if the rule fires there. -/
theorem exists_mem_solve_plan_iff (rule : Rule EntityId) (σ : Valuation) :
    (∃ b ∈ m.solve rule.plan .empty, b.Agrees σ) ↔
      rule.Fires m.registry m.store.factSet σ := by
  have hbound : ∀ v, Binding.empty.isBound v = true ↔ v ∈ ([] : List Variable) := by simp
  rw [m.exists_mem_solve_iff rule.plan hbound σ, Rule.plan, inOrder_plan_iff]
  simp only [(plan_perm rule.body).mem_iff, Binding.empty_agrees, true_and, Rule.Fires]
  constructor
  · rintro ⟨hvars, hholds⟩ atom hatom
    exact ⟨hholds atom hatom, hvars atom hatom⟩
  · intro h
    exact ⟨fun atom hatom => (h atom hatom).2, fun atom hatom => (h atom hatom).1⟩

/-- What a rule concludes from a store are its consequences from the stored facts. -/
theorem mem_conclusions_iff {rule : Rule EntityId} (hsafe : rule.Safe) (f : Fact) :
    f ∈ m.conclusions rule ↔ f ∈ rule.consequences m.registry m.store.factSet := by
  simp only [conclusions, List.mem_flatMap, List.mem_filterMap]
  constructor
  · rintro ⟨b, hb, atom, hatom, hground⟩
    -- the variables that the solution leaves open may have any entity
    obtain ⟨σ, hag⟩ := b.exists_agrees
    exact ⟨σ, (m.exists_mem_solve_plan_iff rule σ).1 ⟨b, hb, hag⟩, atom, hatom,
      hag.factAt_of_ground hground⟩
  · rintro ⟨σ, hfires, atom, hatom, hfact⟩
    obtain ⟨b, hb, hag⟩ := (m.exists_mem_solve_plan_iff rule σ).2 hfires
    refine ⟨b, hb, atom, hatom, hag.ground_of_factAt (fun v hv => ?_) hfact⟩
    have hv' := (mem_boundVariables_congr (plan_perm rule.body) v).2 ((hsafe atom hatom).2 v hv)
    exact (m.isBound_of_mem_solve hb v).2 (Or.inr hv')

end Matcher

/-! ## Inclusions -/

/-- The rule that lets every member of a class be a member of another. -/
def Rule.inclusion (name : String) (sub sup : EntityId) : Rule EntityId :=
  ⟨name, [.member sub (.var ⟨"x"⟩)], [.member sup (.var ⟨"x"⟩)]⟩

@[simp] theorem Rule.bodyPredicates_inclusion (name : String) (sub sup : EntityId) :
    (inclusion name sub sup).bodyPredicates = [sub] := rfl

/-- The members of a class are those of its memberships, oldest first. -/
theorem FactStore.members_eq_filterMap (s : FactStore) (cls : EntityId) :
    s.members cls = s.toList.filterMap fun
      | .member individual c => if c = cls then some individual else none
      | .link _ _ _ => none := by
  rw [members, select_eq_filter, List.filterMap_filter]
  congr 1
  funext f
  cases f with
  | member i c => simp [FactPattern.accepts, FactPattern.slot, Fact.individual?, eq_comm]
  | link p s o => simp [FactPattern.accepts]

/-- An inclusion concludes one membership for each member, in their order. -/
theorem Matcher.conclusions_inclusion (m : Matcher) (name : String) (sub sup : EntityId) :
    m.conclusions (.inclusion name sub sup) = (m.store.members sub).map (Fact.member · sup) := by
  have hsolve : m.solve (Rule.inclusion name sub sup).plan .empty =
      (m.store.members sub).map (Binding.empty.insert ⟨"x"⟩) := by
    simp only [Rule.inclusion, Rule.plan, plan, planFrom, Atom.isRelational, if_true,
      List.filter_nil, List.nil_append, solve, matchAtom, List.flatMap_singleton',
      FactStore.members, List.map_filterMap]
    refine List.filterMap_congr (fun f _ => ?_)
    cases f with
    | member i c => rfl
    | link p s o => rfl
  rw [conclusions, hsolve, List.flatMap_map, List.map_eq_flatMap]
  rfl

end HornOntology
