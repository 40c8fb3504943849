import HornOntology.Proofs.Saturation.Pass

set_option autoImplicit false

/-! # Runs

The loop is followed from pass to pass by one invariant. Besides the account of the run, which only
grows, `LoopInvariant` says that nothing is stored but what every model contains, and that the
stored facts are closed under each rule that the next pass will skip. The second part is what makes
skipping right: a rule is skipped when no predicate of its body gained a fact, so its consequences
are those of the pass before, and they were found then or, if it was skipped then too, before that.

`Ended` says what holds when the loop is left, and `ended_saturate` that it always does. -/

namespace HornOntology

/-! ## The loop, pass by pass -/

section Loop

variable (strategy : Strategy) (registry : Registry) (rules : List (Rule EntityId))

/-- One pass: the rules that may conclude something new are applied. -/
def runPass (pass : Nat) (changed : Option (Std.HashSet EntityId)) (p : Progress) : Progress :=
  p.makePass registry (pass + 1) strategy.parallel (rules.filter (isActive changed))

/-- The predicates that the next pass looks at, after a pass that ended in `q`. -/
def changedBy (q : Progress) : Option (Std.HashSet EntityId) :=
  if strategy.semiNaive then some q.touched else none

variable {strategy registry rules} {pass : Nat} {changed : Option (Std.HashSet EntityId)}
  {p : Progress}

theorem exists_adds_runPass :
    ∃ new, Progress.Adds new p (runPass strategy registry rules pass changed p) :=
  Progress.exists_adds_makePass registry (pass + 1) strategy.parallel _ p

theorem subset_runPass :
    p.store.factSet ⊆ (runPass strategy registry rules pass changed p).store.factSet := by
  obtain ⟨new, hnew⟩ := exists_adds_runPass
  exact hnew.subset

/-- A pass that adds nothing only forgets the counts of the pass before. -/
theorem runPass_of_stable (h : (runPass strategy registry rules pass changed p).added = 0) :
    runPass strategy registry rules pass changed p = p.beginPass := by
  obtain ⟨new, hnew⟩ : ∃ new, Progress.Adds new p
      (runPass strategy registry rules pass changed p) := exists_adds_runPass
  exact hnew.eq_of_nil (List.length_eq_zero_iff.1 (hnew.added.symm.trans h))

/-- A pass that adds nothing is the last one, and changes nothing. -/
theorem saturateFrom_of_stable (h : (runPass strategy registry rules pass changed p).added = 0)
    (fuel : Nat) :
    saturateFrom strategy registry rules (fuel + 1) pass changed p =
      (p.account (pass + 1) true, p.store) := by
  have heq := runPass_of_stable h
  unfold runPass at heq
  simp only [saturateFrom, heq]
  rfl

/-- After any other pass the loop goes on. -/
theorem saturateFrom_of_grows (h : (runPass strategy registry rules pass changed p).added ≠ 0)
    (fuel : Nat) :
    saturateFrom strategy registry rules (fuel + 1) pass changed p =
      saturateFrom strategy registry rules fuel (pass + 1)
        (changedBy strategy (runPass strategy registry rules pass changed p))
        (runPass strategy registry rules pass changed p) := by
  unfold runPass at h ⊢
  simp only [saturateFrom, if_neg h, changedBy]

/-- Once the loop has reached a fixpoint, more passes to spend make no difference. -/
theorem saturateFrom_add {fuel : Nat}
    (h : (saturateFrom strategy registry rules fuel pass changed p).1.reachedFixpoint = true)
    (more : Nat) :
    saturateFrom strategy registry rules (fuel + more) pass changed p =
      saturateFrom strategy registry rules fuel pass changed p := by
  induction fuel generalizing pass changed p with
  | zero => exact absurd h (by simp [saturateFrom, Progress.account])
  | succ fuel ih =>
    rw [Nat.succ_add]
    by_cases hstable : (runPass strategy registry rules pass changed p).added = 0
    · rw [saturateFrom_of_stable hstable, saturateFrom_of_stable hstable]
    · rw [saturateFrom_of_grows hstable] at h
      rw [saturateFrom_of_grows hstable, saturateFrom_of_grows hstable, ih h]

/-- The limit on passes shows in nothing but the number of passes to spend. -/
theorem saturateFrom_limit (semiNaive parallel : Bool) (limit limit' : Option Nat)
    (registry : Registry) (rules : List (Rule EntityId)) (fuel : Nat) :
    saturateFrom ⟨semiNaive, parallel, limit⟩ registry rules fuel =
      saturateFrom ⟨semiNaive, parallel, limit'⟩ registry rules fuel := by
  induction fuel with
  | zero => rfl
  | succ fuel ih =>
    funext pass changed p
    simp only [saturateFrom, ih]

end Loop

/-! ## The invariant -/

/-- What holds before each pass of a run that began with `store`. -/
structure LoopInvariant (strategy : Strategy) (registry : Registry)
    (rules : List (Rule EntityId)) (store : FactStore) (pass : Nat)
    (changed : Option (Std.HashSet EntityId)) (p : Progress) : Prop where
  toList_eq : p.store.toList = store.toList ++ p.derived.toList.map Derivation.fact
  applied_eq : p.applied = p.derived.size
  /-- Each pass so far added something. -/
  pass_le : pass ≤ p.applied
  sound : ∀ facts, IsModel registry rules store.factSet facts → p.store.factSet ⊆ facts
  /-- The rules that the next pass skips have nothing to add. -/
  skipped : ∀ rule ∈ rules, isActive changed rule = false → rule.ClosedIn registry p.store.factSet
  naive : strategy.semiNaive = false → changed = none

namespace LoopInvariant

variable {strategy : Strategy} {registry : Registry} {rules : List (Rule EntityId)}
  {store : FactStore} {pass : Nat} {changed : Option (Std.HashSet EntityId)} {p : Progress}

theorem start (strategy : Strategy) (registry : Registry) (rules : List (Rule EntityId))
    (store : FactStore) : LoopInvariant strategy registry rules store 0 none (.start store) where
  toList_eq := (List.append_nil _).symm
  applied_eq := rfl
  pass_le := Nat.zero_le _
  sound := fun _ hmodel => hmodel.initial_subset
  skipped := fun _ _ h => absurd h (by simp [isActive])
  naive := fun _ => rfl

/-- A pass finds the consequences of all rules, applied or skipped. -/
theorem consequences_subset_runPass (hsafe : ∀ rule ∈ rules, rule.Safe)
    (h : LoopInvariant strategy registry rules store pass changed p) {rule : Rule EntityId}
    (hrule : rule ∈ rules) :
    rule.consequences registry p.store.factSet ⊆
      (runPass strategy registry rules pass changed p).store.factSet := by
  cases hactive : isActive changed rule with
  | true =>
    -- the pass applies the rule to what is stored before it
    exact Progress.consequences_subset_applyAll
      (fun r hr => hsafe r (List.mem_of_mem_filter hr)) strategy.parallel p.beginPass
      (List.mem_filter.2 ⟨hrule, hactive⟩)
  | false =>
    exact ((Rule.closedIn_iff (hsafe rule hrule)).1 (h.skipped rule hrule hactive)).trans
      subset_runPass

theorem initial_subset (h : LoopInvariant strategy registry rules store pass changed p) :
    store.factSet ⊆ p.store.factSet := by
  intro f hf
  rw [FactStore.mem_factSet, h.toList_eq]
  exact List.mem_append_left _ hf

/-- If a pass adds nothing, the facts are a model. -/
theorem isModel_of_stable (hsafe : ∀ rule ∈ rules, rule.Safe)
    (h : LoopInvariant strategy registry rules store pass changed p)
    (hstable : (runPass strategy registry rules pass changed p).added = 0) :
    IsModel registry rules store.factSet p.store.factSet := by
  refine ⟨h.initial_subset, fun rule hrule => ?_⟩
  have hsub := h.consequences_subset_runPass hsafe hrule
  rw [runPass_of_stable hstable] at hsub
  exact (Rule.closedIn_iff (hsafe rule hrule)).2 hsub

theorem runPass_subset (hsafe : ∀ rule ∈ rules, rule.Safe)
    (h : LoopInvariant strategy registry rules store pass changed p) {facts : Set Fact}
    (hmodel : IsModel registry rules store.factSet facts) :
    (runPass strategy registry rules pass changed p).store.factSet ⊆ facts :=
  Progress.applyAll_subset (fun r hr => hsafe r (List.mem_of_mem_filter hr))
    (fun r hr => hmodel.closed r (List.mem_of_mem_filter hr)) strategy.parallel
    p.beginPass (h.sound facts hmodel)

/-- A rule that reads no predicate which gained a fact is closed after the pass. -/
theorem closed_of_inactive (hsafe : ∀ rule ∈ rules, rule.Safe)
    (h : LoopInvariant strategy registry rules store pass changed p) {rule : Rule EntityId}
    (hrule : rule ∈ rules)
    (hinactive : isActive (changedBy strategy (runPass strategy registry rules pass changed p))
      rule = false) :
    rule.ClosedIn registry (runPass strategy registry rules pass changed p).store.factSet := by
  rw [Rule.closedIn_iff (hsafe rule hrule)]
  -- on the predicates of its body the facts are those from before the pass
  refine Set.Subset.trans (Rule.consequences_subset_of_predicates (fun f hf hpred => ?_))
    (h.consequences_subset_runPass hsafe hrule)
  obtain ⟨new, hnew⟩ : ∃ new, Progress.Adds new p
      (runPass strategy registry rules pass changed p) := exists_adds_runPass
  refine hnew.mem_of_untouched hf ?_
  unfold changedBy at hinactive
  split at hinactive
  · simp only [isActive, List.any_eq_false] at hinactive
    exact hinactive _ hpred
  · exact absurd hinactive (by simp [isActive])

theorem step (hsafe : ∀ rule ∈ rules, rule.Safe)
    (h : LoopInvariant strategy registry rules store pass changed p)
    (hgrows : (runPass strategy registry rules pass changed p).added ≠ 0) :
    LoopInvariant strategy registry rules store (pass + 1)
      (changedBy strategy (runPass strategy registry rules pass changed p))
      (runPass strategy registry rules pass changed p) := by
  obtain ⟨new, hnew⟩ : ∃ new, Progress.Adds new p
      (runPass strategy registry rules pass changed p) := exists_adds_runPass
  refine ⟨?_, ?_, ?_, fun _ hmodel => h.runPass_subset hsafe hmodel,
    fun _ hrule hinactive => h.closed_of_inactive hsafe hrule hinactive,
    fun hnaive => by simp [changedBy, hnaive]⟩
  · rw [hnew.store, hnew.derived, h.toList_eq, List.map_append, List.append_assoc]
  · rw [hnew.applied, hnew.size_eq, hnew.added, h.applied_eq]
  · have hpass := h.pass_le
    have happlied := hnew.applied
    rw [hnew.added] at hgrows
    omega

end LoopInvariant

/-! ## The end of a run -/

/-- What holds when a run from `store` with a number of passes to spend is over. -/
structure Ended (registry : Registry) (rules : List (Rule EntityId)) (store : FactStore)
    (fuel : Nat) (result : Saturation × FactStore) : Prop where
  /-- The facts after a run are those before it, followed by those that it derived. -/
  toList_eq : result.2.toList = store.toList ++ result.1.derived.toList.map Derivation.fact
  applied_eq : result.1.applied = result.1.derived.size
  sound : ∀ facts, IsModel registry rules store.factSet facts → result.2.factSet ⊆ facts
  passes_le : result.1.passes ≤ fuel
  passes_le_applied : result.1.passes ≤ result.1.applied + 1
  closed : result.1.reachedFixpoint = true → ∀ rule ∈ rules, rule.ClosedIn registry result.2.factSet
  /-- Without a fixpoint every pass was made, and each added something. -/
  spent : result.1.reachedFixpoint = false → fuel ≤ result.1.applied

theorem ended_saturateFrom {strategy : Strategy} {registry : Registry}
    {rules : List (Rule EntityId)} (hsafe : ∀ rule ∈ rules, rule.Safe) {store : FactStore}
    (fuel : Nat) {pass : Nat} {changed : Option (Std.HashSet EntityId)} {p : Progress}
    (h : LoopInvariant strategy registry rules store pass changed p) :
    Ended registry rules store (pass + fuel)
      (saturateFrom strategy registry rules fuel pass changed p) := by
  -- the invariant is kept as long as passes add something, so the loop is left with it
  induction fuel generalizing pass changed p with
  | zero =>
    exact ⟨h.toList_eq, h.applied_eq, h.sound, Nat.le_refl _, Nat.le_succ_of_le h.pass_le,
      fun hfix => absurd hfix (by simp [saturateFrom, Progress.account]), fun _ => h.pass_le⟩
  | succ fuel ih =>
    by_cases hstable : (runPass strategy registry rules pass changed p).added = 0
    · rw [saturateFrom_of_stable hstable]
      refine ⟨h.toList_eq, h.applied_eq, h.sound, ?_, Nat.succ_le_succ h.pass_le,
        fun _ => (h.isModel_of_stable hsafe hstable).closed, fun hfix =>
          absurd hfix (by simp [Progress.account])⟩
      show pass + 1 ≤ pass + (fuel + 1)
      omega
    · rw [saturateFrom_of_grows hstable, show pass + (fuel + 1) = pass + 1 + fuel by omega]
      exact ih (h.step hsafe hstable)

theorem ended_saturate (strategy : Strategy) (registry : Registry) {rules : List (Rule EntityId)}
    (hsafe : ∀ rule ∈ rules, rule.Safe) (store : FactStore) :
    Ended registry rules store (strategy.maxPasses.getD (passBound rules store))
      (saturate strategy registry rules store) := by
  have h := ended_saturateFrom hsafe (strategy.maxPasses.getD (passBound rules store))
    (LoopInvariant.start strategy registry rules store)
  rwa [Nat.zero_add] at h

namespace Ended

variable {registry : Registry} {rules : List (Rule EntityId)} {store : FactStore} {fuel : Nat}
  {result : Saturation × FactStore}

theorem subset (h : Ended registry rules store fuel result) : store.factSet ⊆ result.2.factSet := by
  intro f hf
  rw [FactStore.mem_factSet, h.toList_eq]
  exact List.mem_append_left _ hf

/-- A run that reached a fixpoint has found the least model. -/
theorem isLeast (h : Ended registry rules store fuel result)
    (hfix : result.1.reachedFixpoint = true) :
    IsLeast {facts | IsModel registry rules store.factSet facts} result.2.factSet :=
  ⟨⟨h.subset, h.closed hfix⟩, fun facts hmodel => h.sound facts hmodel⟩

end Ended

end HornOntology
