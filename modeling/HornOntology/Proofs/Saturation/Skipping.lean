import HornOntology.Proofs.Saturation.Fixpoint
import HornOntology.Proofs.Saturation.Strategies

set_option autoImplicit false

/-! # Skipping rules in sequence

In sequence a rule sees what the rules before it have added in the same pass, but whether it is
skipped was decided before the pass. So skipping does not show if no rule reads a predicate that a
rule before it concludes (`NoRelay`): a rule that is skipped then finds, on the predicates of its
body, the facts from before the pass, and it had nothing to add to those.

Without that condition a rule may be applied one pass later than it would be otherwise. The facts
of a run without a limit stay the same, but their order, the passes in which they are found and the
number of passes do not, as a relay of four rules shows. -/

namespace HornOntology

/-! ## When skipping does not show -/

/-- No rule reads a predicate that a rule before it concludes. -/
def NoRelay (rules : List (Rule EntityId)) : Prop :=
  rules.Pairwise fun earlier later => ∀ q ∈ predicates earlier.head, q ∉ later.bodyPredicates

instance (rules : List (Rule EntityId)) : Decidable (NoRelay rules) :=
  inferInstanceAs (Decidable (List.Pairwise _ _))

/-- What a rule concludes has a predicate of its head. -/
theorem Rule.predicate_mem_of_mem_consequences {registry : Registry} {rule : Rule EntityId}
    {facts : Set Fact} {f : Fact} (h : f ∈ rule.consequences registry facts) :
    f.predicate ∈ predicates rule.head := by
  obtain ⟨σ, -, atom, hatom, hfact⟩ := h
  refine List.mem_filterMap.2 ⟨atom, hatom, ?_⟩
  cases atom with
  | member cls arg =>
    cases hfact
    rfl
  | link property subject object =>
    cases hfact
    rfl
  | builtin op args => simp [Atom.factAt] at hfact

namespace Progress

variable {registry : Registry} {pass : Nat}

/-- In the middle of a pass that began at `p`, rules that are closed at `p` and to which no fact
    that the pass has added is visible may be left out. -/
theorem foldl_sequential_filter {rules : List (Rule EntityId)}
    (hsafe : ∀ rule ∈ rules, rule.Safe) (hrelay : NoRelay rules)
    {isApplied : Rule EntityId → Bool} {p : Progress}
    (hskipped : ∀ rule ∈ rules, isApplied rule = false → rule.ClosedIn registry p.store.factSet)
    (q : Progress) (hpq : p.store.factSet ⊆ q.store.factSet)
    (hunseen : ∀ rule ∈ rules, ∀ f ∈ q.store.factSet, f.predicate ∈ rule.bodyPredicates →
      f ∈ p.store.factSet) :
    (rules.filter isApplied).foldl (apply registry pass none) q =
      rules.foldl (apply registry pass none) q := by
  induction rules generalizing q with
  | nil => rfl
  | cons rule rules ih =>
    rw [List.forall_mem_cons] at hsafe hskipped hunseen
    obtain ⟨hlater, hrelay⟩ := List.pairwise_cons.1 hrelay
    by_cases happlied : isApplied rule = true
    · rw [List.filter_cons_of_pos happlied, List.foldl_cons, List.foldl_cons]
      refine ih hsafe.2 hrelay hskipped.2 _
        (hpq.trans (subset_apply registry pass none q rule)) ?_
      -- what this rule adds has predicates that no later rule reads
      intro later hmem f hf hread
      rw [factSet_apply hsafe.1] at hf
      rcases hf with hold | hnew
      · exact hunseen.2 later hmem f hold hread
      · exact absurd hread (hlater later hmem _ (Rule.predicate_mem_of_mem_consequences hnew))
    · have hclosed := (Rule.closedIn_iff hsafe.1).1 (hskipped.1 (by simpa using happlied))
      have hstill : apply registry pass none q rule = q := by
        refine foldl_record_of_subset rule.name pass (fun f hf => hpq (hclosed ?_))
        have hconclusion := (Matcher.mem_conclusions_iff _ hsafe.1 f).1 hf
        exact Rule.consequences_subset_of_predicates hunseen.1 hconclusion
      rw [List.filter_cons_of_neg happlied, List.foldl_cons, hstill]
      exact ih hsafe.2 hrelay hskipped.2 q hpq hunseen.2

end Progress

/-- Without relays, a run in sequence is the same with and without skipping, in every part. -/
theorem saturate_semiNaive_eq_of_noRelay (registry : Registry) {rules : List (Rule EntityId)}
    (hsafe : ∀ rule ∈ rules, rule.Safe) (hrelay : NoRelay rules) (store : FactStore)
    (limit : Option Nat) :
    saturate ⟨true, false, limit⟩ registry rules store =
      saturate ⟨false, false, limit⟩ registry rules store := by
  refine saturateFrom_semiNaive_eq hsafe (fun hinv => ?_) _
    (.start ⟨true, false, limit⟩ registry rules store)
  unfold runPass
  rw [filter_isActive_none]
  exact congrArg Progress.endPass (Progress.foldl_sequential_filter hsafe hrelay hinv.skipped _
    Set.Subset.rfl (fun _ _ _ hf _ => hf))

/-! ## What is the same in any case -/

/-- Two stores with the same facts hold them in two orders. -/
theorem FactStore.perm_of_factSet_eq {s t : FactStore} (h : s.factSet = t.factSet) :
    s.toList.Perm t.toList := by
  refine (List.perm_ext_iff_of_nodup s.nodup t.nodup).2 (fun f => ?_)
  rw [← FactStore.toList, ← FactStore.toList, ← mem_factSet, ← mem_factSet, h]

/-- Two runs from one store that end with the same facts have recorded the same facts. -/
theorem Ended.derived_perm {registry : Registry} {rules : List (Rule EntityId)} {store : FactStore}
    {fuel fuel' : Nat} {result result' : Saturation × FactStore}
    (h : Ended registry rules store fuel result) (h' : Ended registry rules store fuel' result')
    (hfacts : result.2.factSet = result'.2.factSet) :
    (result.1.derived.toList.map Derivation.fact).Perm
      (result'.1.derived.toList.map Derivation.fact) := by
  have hperm := FactStore.perm_of_factSet_eq hfacts
  rw [h.toList_eq, h'.toList_eq] at hperm
  exact (List.perm_append_left_iff _).1 hperm

/-- **Skipping rules in sequence.** If no rule reads a predicate that a rule before it concludes,
    skipping does not show in any part of the result, under any limit on passes. In any case,
    without a limit both runs reach a fixpoint with the same facts, of which they have added the
    same ones, and skipping saves no pass. -/
theorem saturate_sequential_semiNaive (registry : Registry) {rules : List (Rule EntityId)}
    (hbuilt : ∀ rule ∈ rules, rule.IsBuilt) (store : FactStore) :
    (NoRelay rules → ∀ limit,
      saturate ⟨true, false, limit⟩ registry rules store =
        saturate ⟨false, false, limit⟩ registry rules store) ∧
    let skipping := saturate ⟨true, false, none⟩ registry rules store
    let naive := saturate ⟨false, false, none⟩ registry rules store
    (skipping.1.reachedFixpoint = true ∧ naive.1.reachedFixpoint = true) ∧
      skipping.2.toList.Perm naive.2.toList ∧
      (skipping.1.derived.toList.map Derivation.fact).Perm
        (naive.1.derived.toList.map Derivation.fact) ∧
      skipping.1.applied = naive.1.applied ∧ naive.1.passes ≤ skipping.1.passes := by
  have hsafe : ∀ rule ∈ rules, rule.Safe := fun rule hrule => (hbuilt rule hrule).safe
  refine ⟨fun hrelay => saturate_semiNaive_eq_of_noRelay registry hsafe hrelay store, ?_⟩
  intro skipping naive
  have hfacts : skipping.2.factSet = naive.2.factSet :=
    (isLeast_saturate true false registry hsafe store).unique
      (isLeast_saturate false false registry hsafe store)
  have hskipping := ended_saturate ⟨true, false, none⟩ registry hsafe store
  have hnaive := ended_saturate ⟨false, false, none⟩ registry hsafe store
  have hderived : (skipping.1.derived.toList.map Derivation.fact).Perm
      (naive.1.derived.toList.map Derivation.fact) := hskipping.derived_perm hnaive hfacts
  refine ⟨⟨reachedFixpoint_saturate true false registry hsafe store,
    reachedFixpoint_saturate false false registry hsafe store⟩,
    FactStore.perm_of_factSet_eq hfacts, hderived, ?_, ?_⟩
  · rw [hskipping.applied_eq, hnaive.applied_eq]
    simpa using hderived.length_eq
  · obtain ⟨-, hpasses⟩ :
        skipping.2.factSet ⊆ naive.2.factSet ∧ naive.1.passes ≤ skipping.1.passes :=
      saturate_ahead hsafe rfl (keepsAhead_of_naive hsafe rfl rfl rfl)
    exact hpasses

/-- The closure of a chain, with the rule that leads on before the one that begins. -/
theorem saturate_sequential_semiNaive_chain :
    NoRelay closureRules.reverse ∧
      saturate ⟨true, false, some 2⟩ .empty closureRules.reverse chainStore =
        saturate ⟨false, false, some 2⟩ .empty closureRules.reverse chainStore := by
  have hbuilt : ∀ rule ∈ closureRules.reverse, rule.IsBuilt :=
    fun rule hrule => isBuilt_closureRules rule (List.mem_reverse.1 hrule)
  have hrelay : NoRelay closureRules.reverse := by decide
  exact ⟨hrelay, (saturate_sequential_semiNaive .empty hbuilt chainStore).1 hrelay (some 2)⟩

/-! ## A relay -/

/-- The classes of the relay are numbered from zero to four; five is its individual. -/
def relayId (n : Fin 6) : EntityId := ⟨.ofNat (n.val + 1), by revert n; decide⟩

@[simp] theorem relayId_inj {m n : Fin 6} : relayId m = relayId n ↔ m = n := by
  revert m n
  decide

/-- Members of class 1 are copied to 2 and 4, those of 2 to 3; only the last rule gives class 1
    any. -/
def relayRules : List (Rule EntityId) :=
  [.inclusion "1 to 2" (relayId 1) (relayId 2), .inclusion "2 to 3" (relayId 2) (relayId 3),
    .inclusion "1 to 4" (relayId 1) (relayId 4), .inclusion "0 to 1" (relayId 0) (relayId 1)]

/-- The individual belongs to a class. -/
def relayFact (n : Fin 6) : Fact := .member (relayId 5) (relayId n)

/-- The relay after some derivations, given by class, rule and pass. -/
def relayAfter (derived : List (Fin 6 × String × Nat)) : Progress :=
  ⟨FactStore.empty.extend (relayFact 0 :: derived.map fun d => relayFact d.1),
    (derived.map fun d => ⟨relayFact d.1, d.2.1, d.2.2⟩).toArray,
    derived.foldl (fun counts d => countName d.2.1 counts) [], derived.length, 0, ∅⟩

/-- The same at the end of a pass that added the last ones. -/
def relayPass (derived : List (Fin 6 × String × Nat)) (added : Nat) : Progress :=
  { relayAfter derived with
    added := added
    touched := (derived.drop (derived.length - added)).foldl
      (fun touched d => touched.insert (relayId d.1)) ∅ }

theorem isBuilt_relayRules : ∀ rule ∈ relayRules, rule.IsBuilt := by
  have hparts : ∀ rule ∈ relayRules, Rule.ofParts rule.name rule.body rule.head = .ok rule := by
    simp only [relayRules, List.forall_mem_cons]
    exact ⟨rfl, rfl, rfl, rfl, by simp⟩
  exact fun rule hrule => ⟨_, _, _, hparts rule hrule⟩

theorem Progress.apply_inclusion (registry : Registry) (pass : Nat) (p : Progress) (name : String)
    (sub sup : EntityId) :
    p.apply registry pass none (.inclusion name sub sup) =
      ((p.store.members sub).map (Fact.member · sup)).foldl (record name pass) p := by
  rw [apply, Matcher.conclusions_inclusion]
  rfl

/-- A pass whose outcome is known, and is new, is the first step of the loop. -/
theorem saturateFrom_of_runPass {strategy : Strategy} {registry : Registry}
    {rules : List (Rule EntityId)} {pass : Nat} {changed : Option (Std.HashSet EntityId)}
    {p q : Progress} (h : runPass strategy registry rules pass changed p = q)
    (hadded : q.added ≠ 0) (fuel : Nat) :
    saturateFrom strategy registry rules (fuel + 1) pass changed p =
      saturateFrom strategy registry rules fuel (pass + 1) (changedBy strategy q) q := by
  subst h
  exact saturateFrom_of_grows hadded fuel

/-- The derivations of the relay when every pass applies all rules. -/
def relayNaive : List (Fin 6 × String × Nat) :=
  [(1, "0 to 1", 1), (2, "1 to 2", 2), (3, "2 to 3", 2), (4, "1 to 4", 2)]

/-- The derivations of the relay when passes skip rules: the second pass does not apply the rule
    that reads what it adds first. -/
def relaySkipping : List (Fin 6 × String × Nat) :=
  [(1, "0 to 1", 1), (2, "1 to 2", 2), (4, "1 to 4", 2), (3, "2 to 3", 3)]

theorem runPass_relay_naive :
    let pass := runPass ⟨false, false, none⟩ .empty relayRules
    let found (count added : Nat) := relayPass (relayNaive.take count) added
    pass 0 none (found 0 0) = found 1 1 ∧ pass 1 none (found 1 1) = found 4 3 ∧
      pass 2 none (found 4 3) = found 4 0 := by
  refine ⟨?_, ?_, ?_⟩ <;>
    simp [relayNaive, runPass, relayPass, relayAfter, filter_isActive_none, relayRules,
      Progress.makePass, Progress.beginPass, Progress.endPass, Progress.applyAll,
      Progress.apply_inclusion, FactStore.members_eq_filterMap, FactStore.extend,
      FactStore.toList_assert, Progress.record, FactStore.contains_iff, relayFact, countName,
      Fact.predicate]

theorem runPass_relay_skipping :
    let pass := runPass ⟨true, false, none⟩ .empty relayRules
    let found (count added : Nat) := relayPass (relaySkipping.take count) added
    let changed (count added : Nat) := changedBy ⟨true, false, none⟩ (found count added)
    pass 0 none (found 0 0) = found 1 1 ∧ pass 1 (changed 1 1) (found 1 1) = found 3 2 ∧
      pass 2 (changed 3 2) (found 3 2) = found 4 1 ∧
      pass 3 (changed 4 1) (found 4 1) = found 4 0 := by
  refine ⟨?_, ?_, ?_, ?_⟩ <;>
    simp [relaySkipping, runPass, relayPass, relayAfter, changedBy, isActive,
      filter_isActive_none, Fact.predicate, relayRules, Progress.makePass, Progress.beginPass,
      Progress.endPass, Progress.applyAll, Progress.apply_inclusion,
      FactStore.members_eq_filterMap, FactStore.extend, FactStore.toList_assert, Progress.record,
      FactStore.contains_iff, relayFact, countName]

theorem toList_relayAfter {derived : List (Fin 6 × String × Nat)}
    (h : ((0 : Fin 6) :: derived.map Prod.fst).Nodup) :
    (relayAfter derived).store.toList = (0 :: derived.map Prod.fst).map relayFact := by
  have hinj : Function.Injective relayFact := fun m n hmn =>
    relayId_inj.1 (Fact.member.inj hmn).2
  have hnodup := h.map hinj
  rw [List.map_cons, List.map_map] at hnodup ⊢
  exact (FactStore.toList_extend .empty _).trans (eraseDups_of_nodup hnodup)

/-- **Skipping shows in a relay.** Without a limit on passes, skipping makes one pass more, finds
    the last fact one pass later, and stores the facts in another order. -/
theorem saturate_relay_ne :
    (∀ rule ∈ relayRules, rule.IsBuilt) ∧
    let skipping := saturate ⟨true, false, none⟩ .empty relayRules (relayAfter []).store
    let naive := saturate ⟨false, false, none⟩ .empty relayRules (relayAfter []).store
    skipping.1.passes = 4 ∧ naive.1.passes = 3 ∧
      skipping.1.derived = (relayAfter relaySkipping).derived ∧
      naive.1.derived = (relayAfter relayNaive).derived ∧
      skipping.2.toList = [relayFact 0, relayFact 1, relayFact 2, relayFact 4, relayFact 3] ∧
      naive.2.toList = [relayFact 0, relayFact 1, relayFact 2, relayFact 3, relayFact 4] := by
  obtain ⟨fuel, hfuel⟩ : ∃ fuel, passBound relayRules (relayAfter []).store = fuel + 4 := by
    have hsize : (relayAfter []).store.size = 1 := by
      rw [FactStore.size, ← Array.length_toList]
      exact congrArg List.length (toList_relayAfter (by decide))
    refine ⟨165, ?_⟩
    rw [passBound, hsize]
    rfl
  obtain ⟨hfirst, hsecond, hthird, hlast⟩ := runPass_relay_skipping
  obtain ⟨hfirst', hsecond', hlast'⟩ := runPass_relay_naive
  have hskipping : saturate ⟨true, false, none⟩ .empty relayRules (relayAfter []).store =
      ((relayAfter relaySkipping).account 4 true, (relayAfter relaySkipping).store) := by
    rw [saturate, Option.getD_none, hfuel]
    exact (saturateFrom_of_runPass hfirst (by decide) _).trans <|
      (saturateFrom_of_runPass hsecond (by decide) _).trans <|
      (saturateFrom_of_runPass hthird (by decide) _).trans <|
      saturateFrom_of_stable (congrArg Progress.added hlast) fuel
  have hnaive : saturate ⟨false, false, none⟩ .empty relayRules (relayAfter []).store =
      ((relayAfter relayNaive).account 3 true, (relayAfter relayNaive).store) := by
    rw [saturate, Option.getD_none, hfuel]
    exact (saturateFrom_of_runPass hfirst' (by decide) _).trans <|
      (saturateFrom_of_runPass hsecond' (by decide) _).trans <|
      saturateFrom_of_stable (congrArg Progress.added hlast') (fuel + 1)
  refine ⟨isBuilt_relayRules, ?_⟩
  rw [hskipping, hnaive]
  exact ⟨rfl, rfl, rfl, rfl, toList_relayAfter (by decide), toList_relayAfter (by decide)⟩

end HornOntology
