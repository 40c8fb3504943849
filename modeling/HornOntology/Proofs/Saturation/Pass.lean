import HornOntology.Proofs.Plan
import HornOntology.Saturation

set_option autoImplicit false

/-! # One pass over the rules

What a pass does to the store and to the account of the run. It only appends, the same facts to
both, and counts them (`continues_applyAll`): at its end the total has grown by what it added, and
the predicates it has noted are those that gained a fact (`exists_adds_makePass`). As sets, the
facts after a pass contain the consequences of every rule that was applied
(`consequences_subset_applyAll`) and stay inside every closed set that contained the facts before
it (`applyAll_subset`), in both modes. -/

namespace HornOntology

namespace Progress

/-! ## The account of a pass -/

/-- In the middle of a pass, `q` is `p` with further derivations, whose facts are stored in the same
    order, counted, and noted with their predicates. -/
structure Continues (new : List Derivation) (p q : Progress) : Prop where
  derived : q.derived.toList = p.derived.toList ++ new
  store : q.store.toList = p.store.toList ++ new.map Derivation.fact
  applied : q.applied = p.applied
  added : q.added = p.added + new.length
  mem_touched : ∀ a, a ∈ q.touched ↔ a ∈ p.touched ∨ ∃ d ∈ new, d.fact.predicate = a
  eq_of_nil : new = [] → q = p

namespace Continues

variable {p q r : Progress} {new more : List Derivation}

theorem refl (p : Progress) : Continues [] p p where
  derived := (List.append_nil _).symm
  store := (List.append_nil _).symm
  applied := rfl
  added := rfl
  mem_touched := by simp
  eq_of_nil := fun _ => rfl

theorem trans (hpq : Continues new p q) (hqr : Continues more q r) :
    Continues (new ++ more) p r where
  derived := by rw [hqr.derived, hpq.derived, List.append_assoc]
  store := by rw [hqr.store, hpq.store, List.map_append, List.append_assoc]
  applied := hqr.applied.trans hpq.applied
  added := by rw [hqr.added, hpq.added, List.length_append, Nat.add_assoc]
  mem_touched a := by
    rw [hqr.mem_touched, hpq.mem_touched, or_assoc]
    simp only [List.mem_append, or_and_right, exists_or]
  eq_of_nil hnil := by
    obtain ⟨hnew, hmore⟩ := List.append_eq_nil_iff.1 hnil
    rw [hqr.eq_of_nil hmore, hpq.eq_of_nil hnew]

theorem subset (h : Continues new p q) : p.store.factSet ⊆ q.store.factSet := by
  intro f hf
  rw [FactStore.mem_factSet, h.store]
  exact List.mem_append_left _ hf

end Continues

theorem record_of_mem {p : Progress} {fact : Fact} (h : fact ∈ p.store.toList) (rule : String)
    (pass : Nat) : record rule pass p fact = p := by
  rw [record, if_pos ((p.store.contains_iff fact).2 h)]

theorem record_of_not_mem {p : Progress} {fact : Fact} (h : fact ∉ p.store.toList)
    (rule : String) (pass : Nat) :
    record rule pass p fact =
      ⟨p.store.assert fact, p.derived.push ⟨fact, rule, pass⟩, countName rule p.stats, p.applied,
        p.added + 1, p.touched.insert fact.predicate⟩ := by
  rw [record, if_neg (fun hc => h ((p.store.contains_iff fact).1 hc))]

theorem continues_record (rule : String) (pass : Nat) (p : Progress) (fact : Fact) :
    ∃ new, Continues new p (record rule pass p fact) := by
  by_cases h : fact ∈ p.store.toList
  · rw [record_of_mem h]
    exact ⟨[], .refl p⟩
  · rw [record_of_not_mem h]
    refine ⟨[⟨fact, rule, pass⟩], ?_, ?_, rfl, rfl, ?_, by simp⟩
    · simp
    · simp [FactStore.toList_assert, h]
    · intro a
      simp [or_comm]

theorem continues_foldl {α : Type} (f : Progress → α → Progress)
    (hf : ∀ (p : Progress) (a : α), ∃ new, Continues new p (f p a)) (as : List α) (p : Progress) :
    ∃ new, Continues new p (as.foldl f p) := by
  induction as generalizing p with
  | nil => exact ⟨[], .refl p⟩
  | cons a as ih =>
    obtain ⟨new, hnew⟩ := hf p a
    obtain ⟨more, hmore⟩ := ih (f p a)
    exact ⟨new ++ more, hnew.trans hmore⟩

theorem continues_apply (registry : Registry) (pass : Nat) (snapshot : Option FactStore)
    (p : Progress) (rule : Rule EntityId) :
    ∃ new, Continues new p (apply registry pass snapshot p rule) :=
  continues_foldl _ (continues_record rule.name pass) _ p

theorem continues_applyAll (registry : Registry) (pass : Nat) (parallel : Bool)
    (rules : List (Rule EntityId)) (p : Progress) :
    ∃ new, Continues new p (applyAll registry pass parallel rules p) :=
  continues_foldl _ (continues_apply registry pass _) rules p

theorem subset_apply (registry : Registry) (pass : Nat) (snapshot : Option FactStore)
    (p : Progress) (rule : Rule EntityId) :
    p.store.factSet ⊆ (apply registry pass snapshot p rule).store.factSet := by
  obtain ⟨new, hnew⟩ := continues_apply registry pass snapshot p rule
  exact hnew.subset

/-- A whole pass from `p` to `q` adds the given derivations, and is counted in the total. -/
structure Adds (new : List Derivation) (p q : Progress) : Prop where
  derived : q.derived.toList = p.derived.toList ++ new
  store : q.store.toList = p.store.toList ++ new.map Derivation.fact
  applied : q.applied = p.applied + new.length
  added : q.added = new.length
  mem_touched : ∀ a, a ∈ q.touched ↔ ∃ d ∈ new, d.fact.predicate = a
  eq_of_nil : new = [] → q = p.beginPass

theorem exists_adds_makePass (registry : Registry) (pass : Nat) (parallel : Bool)
    (rules : List (Rule EntityId)) (p : Progress) :
    ∃ new, Adds new p (p.makePass registry pass parallel rules) := by
  obtain ⟨new, hnew⟩ := continues_applyAll registry pass parallel rules p.beginPass
  have hadded := hnew.added
  rw [show p.beginPass.added = 0 from rfl, Nat.zero_add] at hadded
  refine ⟨new, hnew.derived, hnew.store, ?_, hadded, fun a => ?_, fun hnil => ?_⟩
  · show _ + _ = _
    rw [hnew.applied, hadded]
    rfl
  · refine (hnew.mem_touched a).trans (or_iff_right ?_)
    exact Std.HashSet.not_mem_empty
  · rw [makePass, hnew.eq_of_nil hnil]
    rfl

namespace Adds

variable {p q : Progress} {new : List Derivation}

theorem subset (h : Adds new p q) : p.store.factSet ⊆ q.store.factSet := by
  intro f hf
  rw [FactStore.mem_factSet, h.store]
  exact List.mem_append_left _ hf

theorem size_eq (h : Adds new p q) : q.derived.size = p.derived.size + q.added := by
  rw [h.added, ← Array.length_toList, ← Array.length_toList, h.derived, List.length_append]

/-- A fact whose predicate is not noted is not new. -/
theorem mem_of_untouched (h : Adds new p q) {f : Fact} (hf : f ∈ q.store.factSet)
    (huntouched : f.predicate ∉ q.touched) : f ∈ p.store.factSet := by
  rw [FactStore.mem_factSet, h.store, List.mem_append] at hf
  rcases hf with hold | hnew
  · exact hold
  · obtain ⟨d, hd, rfl⟩ := List.mem_map.1 hnew
    exact absurd ((h.mem_touched _).2 ⟨d, hd, rfl⟩) huntouched

/-- If a pass leaves the set of facts as it was, it added nothing. -/
theorem added_eq_zero_of_subset (h : Adds new p q) (hsub : q.store.factSet ⊆ p.store.factSet) :
    q.added = 0 := by
  rw [h.added, List.length_eq_zero_iff, List.eq_nil_iff_forall_not_mem]
  intro d hd
  -- a recorded fact would be stored twice
  have hfact : d.fact ∈ new.map Derivation.fact := List.mem_map_of_mem hd
  have hmem : d.fact ∈ q.store.toList := by
    rw [h.store]
    exact List.mem_append_right _ hfact
  have hnodup : q.store.toList.Nodup := q.store.nodup
  rw [h.store, List.nodup_append] at hnodup
  exact hnodup.2.2 d.fact (hsub hmem) d.fact hfact rfl

end Adds

/-! ## The facts after a pass -/

theorem factSet_record (rule : String) (pass : Nat) (p : Progress) (fact : Fact) :
    (record rule pass p fact).store.factSet = insert fact p.store.factSet := by
  by_cases h : fact ∈ p.store.toList
  · rw [record_of_mem h]
    exact (Set.insert_eq_of_mem ((p.store.mem_factSet fact).2 h)).symm
  · rw [record_of_not_mem h, FactStore.factSet_assert]

theorem mem_foldl_record_iff (rule : String) (pass : Nat) (facts : List Fact) (p : Progress)
    (f : Fact) :
    f ∈ (facts.foldl (record rule pass) p).store.factSet ↔ f ∈ p.store.factSet ∨ f ∈ facts := by
  induction facts generalizing p with
  | nil => simp
  | cons fact facts ih =>
    rw [List.foldl_cons, ih, factSet_record, Set.mem_insert_iff, List.mem_cons, or_assoc,
      or_left_comm]

/-- Facts that are stored already leave no trace. -/
theorem foldl_record_of_subset (rule : String) (pass : Nat) {facts : List Fact} {p : Progress}
    (h : ∀ f ∈ facts, f ∈ p.store.factSet) : facts.foldl (record rule pass) p = p := by
  induction facts with
  | nil => rfl
  | cons fact facts ih =>
    rw [List.forall_mem_cons] at h
    rw [List.foldl_cons, record_of_mem h.1, ih h.2]

section Facts

variable {registry : Registry} {pass : Nat} {snapshot : Option FactStore}

/-- Applying a rule adds its consequences from the facts it looks at. -/
theorem factSet_apply {rule : Rule EntityId} (hsafe : rule.Safe) (p : Progress) :
    (apply registry pass snapshot p rule).store.factSet =
      p.store.factSet ∪ rule.consequences registry (snapshot.getD p.store).factSet := by
  ext f
  rw [apply, mem_foldl_record_iff, Matcher.mem_conclusions_iff _ hsafe, Set.mem_union]

/-- What holds of the snapshot, if there is one, and of the current store holds of the store that a
    rule looks at. -/
theorem getD_snapshot {P : FactStore → Prop} (hsnapshot : ∀ s ∈ snapshot, P s) {store : FactStore}
    (hstore : P store) : P (snapshot.getD store) := by
  cases snapshot with
  | none => exact hstore
  | some s => exact hsnapshot s rfl

/-- The snapshot of a pass is the store before it. -/
theorem snapshot_of_store {P : FactStore → Prop} (parallel : Bool) {store : FactStore}
    (hstore : P store) : ∀ s ∈ (if parallel then some store else none), P s := by
  intro s hs
  cases parallel with
  | false => exact absurd hs (by simp)
  | true =>
    simp only [if_true, Option.mem_def, Option.some.injEq] at hs
    exact hs ▸ hstore

theorem consequences_subset_foldl {rules : List (Rule EntityId)}
    (hsafe : ∀ rule ∈ rules, rule.Safe) {facts : Set Fact}
    (hsnapshot : ∀ s ∈ snapshot, facts ⊆ s.factSet) (p : Progress)
    (hp : facts ⊆ p.store.factSet) {rule : Rule EntityId} (hrule : rule ∈ rules) :
    rule.consequences registry facts ⊆
      (rules.foldl (apply registry pass snapshot) p).store.factSet := by
  induction rules generalizing p with
  | nil => exact absurd hrule (by simp)
  | cons first rules ih =>
    rw [List.forall_mem_cons] at hsafe
    have hfirst := @factSet_apply registry pass snapshot first hsafe.1 p
    rcases List.mem_cons.1 hrule with rfl | hrest
    · -- what a rule adds is still there when the rest has been applied
      obtain ⟨new, hrest⟩ := continues_foldl _ (continues_apply registry pass _) rules _
      refine Set.Subset.trans ?_ hrest.subset
      rw [hfirst]
      have hseen : facts ⊆ (snapshot.getD p.store).factSet :=
        getD_snapshot (P := fun s => facts ⊆ s.factSet) hsnapshot hp
      exact (Rule.consequences_mono hseen).trans Set.subset_union_right
    · refine ih hsafe.2 _ ?_ hrest
      rw [hfirst]
      exact hp.trans Set.subset_union_left

/-- A pass finds all consequences, from the facts before it, of the rules it applies. -/
theorem consequences_subset_applyAll {rules : List (Rule EntityId)}
    (hsafe : ∀ rule ∈ rules, rule.Safe) (parallel : Bool) (p : Progress) {rule : Rule EntityId}
    (hrule : rule ∈ rules) :
    rule.consequences registry p.store.factSet ⊆
      (applyAll registry pass parallel rules p).store.factSet := by
  have hsnapshot := snapshot_of_store (P := fun s => p.store.factSet ⊆ s.factSet) parallel
    Set.Subset.rfl
  exact consequences_subset_foldl hsafe hsnapshot p Set.Subset.rfl hrule

/-- Rules stay inside a set of facts if, looking at facts in it, they conclude facts in it. -/
theorem foldl_subset {rules : List (Rule EntityId)} (hsafe : ∀ rule ∈ rules, rule.Safe)
    {facts : Set Fact}
    (hinside : ∀ rule ∈ rules, ∀ s : FactStore, s.factSet ⊆ facts →
      rule.consequences registry (snapshot.getD s).factSet ⊆ facts)
    (p : Progress) (hp : p.store.factSet ⊆ facts) :
    (rules.foldl (apply registry pass snapshot) p).store.factSet ⊆ facts := by
  induction rules generalizing p with
  | nil => exact hp
  | cons rule rules ih =>
    rw [List.forall_mem_cons] at hsafe hinside
    refine ih hsafe.2 hinside.2 _ ?_
    rw [factSet_apply hsafe.1]
    exact Set.union_subset hp (hinside.1 p.store hp)

/-- A pass stays inside every closed set that contains the facts before it. -/
theorem applyAll_subset {rules : List (Rule EntityId)} (hsafe : ∀ rule ∈ rules, rule.Safe)
    {facts : Set Fact} (hclosed : ∀ rule ∈ rules, rule.ClosedIn registry facts) (parallel : Bool)
    (p : Progress) (hp : p.store.factSet ⊆ facts) :
    (applyAll registry pass parallel rules p).store.factSet ⊆ facts := by
  refine foldl_subset hsafe (fun rule hrule s hs => ?_) p hp
  have hseen := getD_snapshot (P := fun s => s.factSet ⊆ facts) (snapshot_of_store parallel hp) hs
  exact (Rule.consequences_mono hseen).trans
    ((Rule.closedIn_iff (hsafe rule hrule)).1 (hclosed rule hrule))

end Facts

/-! ## Comparing passes -/

section Compare

variable {registry : Registry} {pass : Nat}

/-- A parallel pass adds nothing but consequences from the facts before it. -/
theorem applyAll_parallel_subset {rules : List (Rule EntityId)}
    (hsafe : ∀ rule ∈ rules, rule.Safe) (p : Progress) {facts : Set Fact}
    (hp : p.store.factSet ⊆ facts)
    (hconsequences : ∀ rule ∈ rules, rule.consequences registry p.store.factSet ⊆ facts) :
    (applyAll registry pass true rules p).store.factSet ⊆ facts := by
  exact foldl_subset hsafe (fun rule hrule _ _ => hconsequences rule hrule) p hp

/-- In sequence, more rules applied to more facts give more facts. -/
theorem applyAll_sequential_mono {rules : List (Rule EntityId)}
    (hsafe : ∀ rule ∈ rules, rule.Safe) (isApplied : Rule EntityId → Bool) {pass' : Nat}
    {p q : Progress} (hpq : p.store.factSet ⊆ q.store.factSet) :
    (applyAll registry pass false (rules.filter isApplied) p).store.factSet ⊆
      (applyAll registry pass' false rules q).store.factSet := by
  simp only [applyAll, Bool.false_eq_true, if_false]
  induction rules generalizing p q with
  | nil => exact hpq
  | cons rule rules ih =>
    rw [List.forall_mem_cons] at hsafe
    have hq := @factSet_apply registry pass' none rule hsafe.1 q
    by_cases happlied : isApplied rule = true
    · rw [List.filter_cons_of_pos happlied, List.foldl_cons, List.foldl_cons]
      refine ih hsafe.2 ?_
      rw [hq, factSet_apply hsafe.1]
      exact Set.union_subset_union hpq (Rule.consequences_mono hpq)
    · rw [List.filter_cons_of_neg happlied, List.foldl_cons]
      refine ih hsafe.2 ?_
      rw [hq]
      exact hpq.trans Set.subset_union_left

/-- A parallel pass may leave out rules whose consequences are stored. -/
theorem applyAll_parallel_filter {rules : List (Rule EntityId)}
    (hsafe : ∀ rule ∈ rules, rule.Safe) {isApplied : Rule EntityId → Bool} {p : Progress}
    (hskipped : ∀ rule ∈ rules, isApplied rule = false → rule.ClosedIn registry p.store.factSet) :
    applyAll registry pass true (rules.filter isApplied) p =
      applyAll registry pass true rules p := by
  have hfold (q : Progress) (hq : p.store.factSet ⊆ q.store.factSet) :
      (rules.filter isApplied).foldl (apply registry pass (some p.store)) q =
        rules.foldl (apply registry pass (some p.store)) q := by
    induction rules generalizing q with
    | nil => rfl
    | cons rule rules ih =>
      rw [List.forall_mem_cons] at hsafe hskipped
      by_cases happlied : isApplied rule = true
      · rw [List.filter_cons_of_pos happlied, List.foldl_cons, List.foldl_cons]
        exact ih hsafe.2 hskipped.2 _ (hq.trans (subset_apply registry pass _ q rule))
      · -- every conclusion of the rule is stored, so applying it records nothing
        have hclosed := (Rule.closedIn_iff hsafe.1).1 (hskipped.1 (by simpa using happlied))
        have hstill : apply registry pass (some p.store) q rule = q := by
          refine foldl_record_of_subset rule.name pass (fun f hf => hq (hclosed ?_))
          exact (Matcher.mem_conclusions_iff _ hsafe.1 f).1 hf
        rw [List.filter_cons_of_neg happlied, List.foldl_cons, hstill]
        exact ih hsafe.2 hskipped.2 q hq
  exact hfold p Set.Subset.rfl

end Compare

end Progress

end HornOntology
