import HornOntology.Proofs.Saturation.Run

set_option autoImplicit false

/-! # Comparing strategies

Two runs from the same store are followed side by side, pass by pass. A strategy keeps ahead of
another if, from more facts, one pass of it leads to more facts again (`KeepsAhead`): every
strategy keeps ahead of the parallel ones, and applying all rules in sequence keeps ahead of
skipping some. A run that keeps ahead has more facts at the end, and does not make more passes
(`saturateFrom_ahead`).

In parallel mode skipping rules makes no difference at all, to any part of the result
(`saturateFrom_parallel`). -/

namespace HornOntology

/-! ## Passes -/

theorem filter_isActive_none (rules : List (Rule EntityId)) :
    rules.filter (isActive none) = rules :=
  List.filter_eq_self.2 (fun _ _ => rfl)

/-- If a pass leaves the set of facts as it was, it added nothing. -/
theorem added_eq_zero_of_subset {strategy : Strategy} {registry : Registry}
    {rules : List (Rule EntityId)} {pass : Nat} {changed : Option (Std.HashSet EntityId)}
    {p : Progress}
    (hsub : (runPass strategy registry rules pass changed p).store.factSet ⊆ p.store.factSet) :
    (runPass strategy registry rules pass changed p).added = 0 := by
  obtain ⟨new, hnew⟩ : ∃ new, Progress.Adds new p
      (runPass strategy registry rules pass changed p) := exists_adds_runPass
  exact hnew.added_eq_zero_of_subset hsub

theorem pass_le_passes (strategy : Strategy) (registry : Registry) (rules : List (Rule EntityId))
    (fuel pass : Nat) (changed : Option (Std.HashSet EntityId)) (p : Progress) :
    pass ≤ (saturateFrom strategy registry rules fuel pass changed p).1.passes := by
  induction fuel generalizing pass changed p with
  | zero => exact Nat.le_refl pass
  | succ fuel ih =>
    by_cases hstable : (runPass strategy registry rules pass changed p).added = 0
    · rw [saturateFrom_of_stable hstable]
      exact Nat.le_succ pass
    · rw [saturateFrom_of_grows hstable]
      exact (Nat.le_succ pass).trans (ih _ _ _)

/-- As long as there are passes to spend, one is made. -/
theorem pass_lt_passes (strategy : Strategy) (registry : Registry) (rules : List (Rule EntityId))
    (fuel pass : Nat) (changed : Option (Std.HashSet EntityId)) (p : Progress) :
    pass < (saturateFrom strategy registry rules (fuel + 1) pass changed p).1.passes := by
  by_cases hstable : (runPass strategy registry rules pass changed p).added = 0
  · rw [saturateFrom_of_stable hstable]
    exact Nat.lt_succ_self pass
  · rw [saturateFrom_of_grows hstable]
    exact pass_le_passes strategy registry rules fuel (pass + 1) _ _

/-! ## Keeping ahead -/

section Ahead

variable {registry : Registry} {rules : List (Rule EntityId)} {store : FactStore}

/-- From more facts, a pass of `fast` leads to more facts than one of `slow`. -/
def KeepsAhead (registry : Registry) (rules : List (Rule EntityId)) (store : FactStore)
    (slow fast : Strategy) : Prop :=
  ∀ {pass : Nat} {changed changed' : Option (Std.HashSet EntityId)} {p q : Progress},
    LoopInvariant slow registry rules store pass changed p →
    LoopInvariant fast registry rules store pass changed' q →
    p.store.factSet ⊆ q.store.factSet →
      (runPass slow registry rules pass changed p).store.factSet ⊆
        (runPass fast registry rules pass changed' q).store.factSet

/-- Every strategy keeps ahead of a parallel one. -/
theorem keepsAhead_of_parallel (hsafe : ∀ rule ∈ rules, rule.Safe) {slow : Strategy}
    (hslow : slow.parallel = true) (fast : Strategy) :
    KeepsAhead registry rules store slow fast := by
  intro pass changed changed' p q _ hq hsub
  unfold runPass
  rw [hslow]
  refine Progress.applyAll_parallel_subset (fun r hr => hsafe r (List.mem_of_mem_filter hr))
    p.beginPass (hsub.trans subset_runPass) (fun rule hrule => ?_)
  exact (Rule.consequences_mono hsub).trans
    (hq.consequences_subset_runPass hsafe (List.mem_of_mem_filter hrule))

/-- In sequence, applying all rules keeps ahead of applying some. -/
theorem keepsAhead_of_naive (hsafe : ∀ rule ∈ rules, rule.Safe) {slow fast : Strategy}
    (hslow : slow.parallel = false) (hfast : fast.parallel = false)
    (hnaive : fast.semiNaive = false) : KeepsAhead registry rules store slow fast := by
  intro pass changed changed' p q _ hq hsub
  unfold runPass
  rw [hslow, hfast, hq.naive hnaive, filter_isActive_none]
  exact Progress.applyAll_sequential_mono hsafe (isActive changed) hsub

/-- A run that keeps ahead ends with more facts, after no more passes. -/
theorem saturateFrom_ahead (hsafe : ∀ rule ∈ rules, rule.Safe) {slow fast : Strategy}
    (hahead : KeepsAhead registry rules store slow fast) (fuel : Nat) {pass : Nat}
    {changed changed' : Option (Std.HashSet EntityId)} {p q : Progress}
    (hp : LoopInvariant slow registry rules store pass changed p)
    (hq : LoopInvariant fast registry rules store pass changed' q)
    (hsub : p.store.factSet ⊆ q.store.factSet) :
    (saturateFrom slow registry rules fuel pass changed p).2.factSet ⊆
        (saturateFrom fast registry rules fuel pass changed' q).2.factSet ∧
      (saturateFrom fast registry rules fuel pass changed' q).1.passes ≤
        (saturateFrom slow registry rules fuel pass changed p).1.passes := by
  induction fuel generalizing pass changed changed' p q with
  | zero => exact ⟨hsub, Nat.le_refl pass⟩
  | succ fuel ih =>
    by_cases hfast : (runPass fast registry rules pass changed' q).added = 0
    · -- the run ahead has reached the least model, which the other cannot leave
      rw [saturateFrom_of_stable hfast]
      have hmodel := hq.isModel_of_stable hsafe hfast
      exact ⟨(ended_saturateFrom hsafe (fuel + 1) hp).sound _ hmodel,
        pass_lt_passes slow registry rules fuel pass changed p⟩
    · -- if the run behind had reached it, the run ahead could not have grown
      have hslow : (runPass slow registry rules pass changed p).added ≠ 0 := by
        intro hstable
        have hmodel := hp.isModel_of_stable hsafe hstable
        exact hfast (added_eq_zero_of_subset ((hq.runPass_subset hsafe hmodel).trans hsub))
      rw [saturateFrom_of_grows hfast, saturateFrom_of_grows hslow]
      exact ih (hp.step hsafe hslow) (hq.step hsafe hfast) (hahead hp hq hsub)

theorem saturate_ahead (hsafe : ∀ rule ∈ rules, rule.Safe) {slow fast : Strategy}
    (hlimit : slow.maxPasses = fast.maxPasses)
    (hahead : KeepsAhead registry rules store slow fast) :
    (saturate slow registry rules store).2.factSet ⊆
        (saturate fast registry rules store).2.factSet ∧
      (saturate fast registry rules store).1.passes ≤
        (saturate slow registry rules store).1.passes := by
  unfold saturate
  rw [hlimit]
  exact saturateFrom_ahead hsafe hahead _ (.start slow registry rules store)
    (.start fast registry rules store) Set.Subset.rfl

end Ahead

/-- **The strategies in order.** Under any limit on passes, a parallel run finds no more facts than a
    sequential one that skips rules, and this one no more than a sequential one that applies them
    all, which stays inside the least model; and the passes they make are in the opposite order. -/
theorem saturate_strategies_ordered (registry : Registry) {rules : List (Rule EntityId)}
    (hbuilt : ∀ rule ∈ rules, rule.IsBuilt) (store : FactStore) (limit : Option Nat)
    (semiNaive : Bool) :
    let parallel := saturate ⟨semiNaive, true, limit⟩ registry rules store
    let sequential := saturate ⟨true, false, limit⟩ registry rules store
    let naive := saturate ⟨false, false, limit⟩ registry rules store
    (parallel.2.factSet ⊆ sequential.2.factSet ∧ sequential.2.factSet ⊆ naive.2.factSet ∧
      naive.2.factSet ⊆ leastModel registry rules store.factSet ∧
      IsLeast {facts | IsModel registry rules store.factSet facts}
        (leastModel registry rules store.factSet)) ∧
    naive.1.passes ≤ sequential.1.passes ∧ sequential.1.passes ≤ parallel.1.passes := by
  intro parallel sequential naive
  have hsafe : ∀ rule ∈ rules, rule.Safe := fun rule hrule => (hbuilt rule hrule).safe
  obtain ⟨hfacts, hpasses⟩ :
      parallel.2.factSet ⊆ sequential.2.factSet ∧ sequential.1.passes ≤ parallel.1.passes :=
    saturate_ahead hsafe rfl (keepsAhead_of_parallel hsafe rfl _)
  obtain ⟨hfacts', hpasses'⟩ :
      sequential.2.factSet ⊆ naive.2.factSet ∧ naive.1.passes ≤ sequential.1.passes :=
    saturate_ahead hsafe rfl (keepsAhead_of_naive hsafe rfl rfl rfl)
  have hsound := (ended_saturate ⟨false, false, limit⟩ registry hsafe store).sound
  exact ⟨⟨hfacts, hfacts', Set.subset_sInter hsound,
    isLeast_leastModel registry hsafe store.factSet⟩, hpasses', hpasses⟩

/-- Two passes over a chain: in parallel with skipping, and in sequence without. -/
theorem saturate_strategies_ordered_chain :
    (saturate ⟨true, true, some 2⟩ .empty closureRules chainStore).2.factSet ⊆
        (saturate ⟨false, false, some 2⟩ .empty closureRules chainStore).2.factSet ∧
      (saturate ⟨false, false, some 2⟩ .empty closureRules chainStore).1.passes ≤
        (saturate ⟨true, true, some 2⟩ .empty closureRules chainStore).1.passes := by
  obtain ⟨⟨hparallel, hsequential, -, -⟩, hnaive, hsemi⟩ :=
    saturate_strategies_ordered .empty isBuilt_closureRules chainStore (some 2) true
  exact ⟨hparallel.trans hsequential, hnaive.trans hsemi⟩

/-! ## Skipping rules in parallel -/

/-- If no pass shows which rules it skips, neither does the run. -/
theorem saturateFrom_semiNaive_eq {registry : Registry} {rules : List (Rule EntityId)}
    (hsafe : ∀ rule ∈ rules, rule.Safe) {store : FactStore} {parallel : Bool} {limit : Option Nat}
    (hpass : ∀ {pass : Nat} {changed : Option (Std.HashSet EntityId)} {p : Progress},
      LoopInvariant ⟨true, parallel, limit⟩ registry rules store pass changed p →
        runPass ⟨true, parallel, limit⟩ registry rules pass changed p =
          runPass ⟨false, parallel, limit⟩ registry rules pass none p)
    (fuel : Nat) {pass : Nat} {changed : Option (Std.HashSet EntityId)} {p : Progress}
    (h : LoopInvariant ⟨true, parallel, limit⟩ registry rules store pass changed p) :
    saturateFrom ⟨true, parallel, limit⟩ registry rules fuel pass changed p =
      saturateFrom ⟨false, parallel, limit⟩ registry rules fuel pass none p := by
  induction fuel generalizing pass changed p with
  | zero => rfl
  | succ fuel ih =>
    have heq := hpass h
    by_cases hstable : (runPass ⟨true, parallel, limit⟩ registry rules pass changed p).added = 0
    · rw [saturateFrom_of_stable hstable, saturateFrom_of_stable (heq ▸ hstable)]
    · rw [saturateFrom_of_grows hstable, saturateFrom_of_grows (heq ▸ hstable), ← heq]
      exact ih (h.step hsafe hstable)

/-- A parallel pass may skip the rules that gained nothing: the result is the same in every part. -/
theorem saturateFrom_parallel {registry : Registry} {rules : List (Rule EntityId)}
    (hsafe : ∀ rule ∈ rules, rule.Safe) {store : FactStore} (limit : Option Nat) (fuel : Nat)
    {pass : Nat} {changed : Option (Std.HashSet EntityId)} {p : Progress}
    (h : LoopInvariant ⟨true, true, limit⟩ registry rules store pass changed p) :
    saturateFrom ⟨true, true, limit⟩ registry rules fuel pass changed p =
      saturateFrom ⟨false, true, limit⟩ registry rules fuel pass none p := by
  refine saturateFrom_semiNaive_eq hsafe (fun hinv => ?_) fuel h
  -- what the pass skips is closed, so the pass is the one over all rules
  unfold runPass
  rw [filter_isActive_none]
  exact congrArg Progress.endPass (Progress.applyAll_parallel_filter hsafe hinv.skipped)

/-- **Skipping rules does not show in parallel mode.** Under any limit on passes the two runs make
    the same passes, record the same derivations in the same order, and leave the same store. -/
theorem saturate_parallel_semiNaive_eq (registry : Registry) {rules : List (Rule EntityId)}
    (hbuilt : ∀ rule ∈ rules, rule.IsBuilt) (store : FactStore) (limit : Option Nat) :
    saturate ⟨true, true, limit⟩ registry rules store =
      saturate ⟨false, true, limit⟩ registry rules store :=
  saturateFrom_parallel (fun rule hrule => (hbuilt rule hrule).safe) limit _
    (.start ⟨true, true, limit⟩ registry rules store)

/-- The two runs over a chain, without a limit. -/
theorem saturate_parallel_semiNaive_eq_chain :
    saturate ⟨true, true, none⟩ .empty closureRules chainStore =
      saturate ⟨false, true, none⟩ .empty closureRules chainStore :=
  saturate_parallel_semiNaive_eq .empty isBuilt_closureRules chainStore none

end HornOntology
