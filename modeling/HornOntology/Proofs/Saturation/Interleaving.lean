import HornOntology.Proofs.Saturation.Fixpoint
import HornOntology.Proofs.Saturation.Strategies

set_option autoImplicit false

/-! # Asserting and saturating by turns

A store need not be filled before it is saturated: facts may be asserted and rules applied in any
order, each time under another strategy, and a limit may stop a run half way. All that while the
store stays between the facts that were asserted and their least model (`Holds`): an assertion
moves both ends, and a run moves neither. So a last run without a limit always ends in the same
place (`saturate_interleaved`), and there is nothing to add to it after that
(`saturate_of_closed`). -/

namespace HornOntology

/-! ## Between facts and their least model -/

section LeastModel

variable {registry : Registry} {rules : List (Rule EntityId)} {initial initial' facts : Set Fact}

theorem leastModel_subset (h : IsModel registry rules initial facts) :
    leastModel registry rules initial ⊆ facts :=
  Set.sInter_subset_of_mem h

theorem IsModel.of_subset (h : IsModel registry rules initial' facts) (hsub : initial ⊆ initial') :
    IsModel registry rules initial facts :=
  ⟨hsub.trans h.initial_subset, h.closed⟩

theorem leastModel_mono (hsub : initial ⊆ initial') :
    leastModel registry rules initial ⊆ leastModel registry rules initial' :=
  Set.subset_sInter fun _ hmodel => leastModel_subset (IsModel.of_subset hmodel hsub)

theorem subset_leastModel (registry : Registry) (rules : List (Rule EntityId))
    (initial : Set Fact) : initial ⊆ leastModel registry rules initial :=
  Set.subset_sInter fun _ hmodel => hmodel.initial_subset

/-- Facts that lie between other facts and their least model have the models of those. -/
theorem isModel_iff_of_between (hlow : initial ⊆ initial')
    (hhigh : initial' ⊆ leastModel registry rules initial) :
    IsModel registry rules initial' facts ↔ IsModel registry rules initial facts := by
  constructor
  · intro h
    exact h.of_subset hlow
  · intro h
    exact ⟨hhigh.trans (leastModel_subset h), h.closed⟩

end LeastModel

/-- The store holds all facts of a set, and nothing that does not follow from them. -/
structure Holds (registry : Registry) (rules : List (Rule EntityId)) (asserted : Set Fact)
    (store : FactStore) : Prop where
  asserted_subset : asserted ⊆ store.factSet
  subset_leastModel : store.factSet ⊆ leastModel registry rules asserted

namespace Holds

variable {registry : Registry} {rules : List (Rule EntityId)} {asserted : Set Fact}
  {store : FactStore}

theorem empty (registry : Registry) (rules : List (Rule EntityId)) :
    Holds registry rules ∅ .empty where
  asserted_subset := Set.empty_subset _
  subset_leastModel := by
    intro fact hfact
    simp at hfact

theorem assert (h : Holds registry rules asserted store) (fact : Fact) :
    Holds registry rules (insert fact asserted) (store.assert fact) := by
  have hmono : leastModel registry rules asserted ⊆
      leastModel registry rules (insert fact asserted) :=
    leastModel_mono (Set.subset_insert fact asserted)
  have hfact : fact ∈ leastModel registry rules (insert fact asserted) :=
    HornOntology.subset_leastModel registry rules _ (Set.mem_insert fact asserted)
  constructor
  · rw [FactStore.factSet_assert]
    exact Set.insert_subset_insert h.asserted_subset
  · rw [FactStore.factSet_assert]
    exact Set.insert_subset hfact (h.subset_leastModel.trans hmono)

/-- A run adds only what follows from the stored facts, and these follow from the asserted ones. -/
theorem saturate (hsafe : ∀ rule ∈ rules, rule.Safe) (h : Holds registry rules asserted store)
    (strategy : Strategy) :
    Holds registry rules asserted (saturate strategy registry rules store).2 := by
  have hended := ended_saturate strategy registry hsafe store
  constructor
  · exact h.asserted_subset.trans hended.subset
  · refine Set.subset_sInter fun facts hmodel => hended.sound facts ?_
    exact (isModel_iff_of_between h.asserted_subset h.subset_leastModel).2 hmodel

end Holds

/-! ## Turns -/

/-- What happens to a store in one turn. -/
inductive Turn where
  | assert (fact : Fact)
  | saturate (strategy : Strategy)

/-- The store after a turn. -/
def Turn.take (registry : Registry) (rules : List (Rule EntityId)) (store : FactStore) :
    Turn → FactStore
  | assert fact => store.assert fact
  | saturate strategy => (HornOntology.saturate strategy registry rules store).2

/-- The store after turns, one after the other. -/
def takeTurns (registry : Registry) (rules : List (Rule EntityId)) (turns : List Turn)
    (store : FactStore) : FactStore :=
  turns.foldl (Turn.take registry rules) store

/-- The fact that a turn asserts. -/
def Turn.fact? : Turn → Option Fact
  | assert fact => some fact
  | saturate _ => none

/-- The facts that turns assert, in order. -/
def assertedFacts (turns : List Turn) : List Fact := turns.filterMap Turn.fact?

section Turns

variable {registry : Registry} {rules : List (Rule EntityId)} {asserted : Set Fact}
  {store : FactStore}

theorem Holds.take (hsafe : ∀ rule ∈ rules, rule.Safe) (h : Holds registry rules asserted store)
    (turn : Turn) :
    Holds registry rules (asserted ∪ {f | f ∈ assertedFacts [turn]})
      (turn.take registry rules store) := by
  cases turn with
  | assert fact =>
    have hinsert : asserted ∪ {f | f ∈ assertedFacts [.assert fact]} = insert fact asserted := by
      ext f
      simp [assertedFacts, Turn.fact?, or_comm]
    rw [hinsert]
    exact h.assert fact
  | saturate strategy =>
    have hnone : asserted ∪ {f | f ∈ assertedFacts [.saturate strategy]} = asserted := by
      simp [assertedFacts, Turn.fact?]
    rw [hnone]
    exact h.saturate hsafe strategy

theorem Holds.takeTurns (hsafe : ∀ rule ∈ rules, rule.Safe)
    (h : Holds registry rules asserted store) (turns : List Turn) :
    Holds registry rules (asserted ∪ {f | f ∈ assertedFacts turns})
      (takeTurns registry rules turns store) := by
  induction turns generalizing asserted store with
  | nil => simpa [assertedFacts, HornOntology.takeTurns] using h
  | cons turn turns ih =>
    have hsplit : asserted ∪ {f | f ∈ assertedFacts (turn :: turns)} =
        asserted ∪ {f | f ∈ assertedFacts [turn]} ∪ {f | f ∈ assertedFacts turns} := by
      have happend : assertedFacts (turn :: turns) = assertedFacts [turn] ++ assertedFacts turns :=
        List.filterMap_append (l := [turn])
      ext f
      simp only [happend, List.mem_append, Set.mem_union, Set.mem_ofPred_eq, or_assoc]
    rw [hsplit]
    exact ih (h.take hsafe turn)

end Turns

/-! ## The last run -/

/-- A run over facts that are closed under all rules makes one pass, finds nothing, and leaves the
    store as it is, whatever the strategy, as long as it allows a pass. -/
theorem saturate_of_closed {registry : Registry} {rules : List (Rule EntityId)}
    (hsafe : ∀ rule ∈ rules, rule.Safe) {store : FactStore}
    (hclosed : ∀ rule ∈ rules, rule.ClosedIn registry store.factSet) {strategy : Strategy}
    (hlimit : strategy.maxPasses ≠ some 0) :
    saturate strategy registry rules store = (⟨1, true, #[], 0, []⟩, store) := by
  obtain ⟨fuel, hfuel⟩ :
      ∃ fuel, strategy.maxPasses.getD (passBound rules store) = fuel + 1 := by
    refine Nat.exists_eq_succ_of_ne_zero ?_
    cases hmax : strategy.maxPasses with
    | none => simp [passBound]
    | some limit =>
      rw [hmax] at hlimit
      simpa using hlimit
  have hstart := LoopInvariant.start strategy registry rules store
  have hstable : (runPass strategy registry rules 0 none (.start store)).added = 0 :=
    added_eq_zero_of_subset (hstart.runPass_subset hsafe ⟨Set.Subset.rfl, hclosed⟩)
  rw [saturate, hfuel]
  exact saturateFrom_of_stable hstable fuel

/-- **Turns are confluent.** Whatever facts were asserted and whatever runs were made in between,
    under any strategies and limits, a last run without a limit leaves the facts that a single run
    finds when they are all asserted first. Another run then makes one pass, applies nothing and
    leaves the store as it is. -/
theorem saturate_interleaved (registry : Registry) {rules : List (Rule EntityId)}
    (hbuilt : ∀ rule ∈ rules, rule.IsBuilt) (turns : List Turn) (semiNaive parallel : Bool) :
    let last := (saturate ⟨semiNaive, parallel, none⟩ registry rules
      (takeTurns registry rules turns .empty)).2
    (∀ semiNaive' parallel',
      last.factSet = (saturate ⟨semiNaive', parallel', none⟩ registry rules
        (.extend .empty (assertedFacts turns))).2.factSet) ∧
    ∀ again : Strategy, again.maxPasses ≠ some 0 →
      saturate again registry rules last = (⟨1, true, #[], 0, []⟩, last) := by
  intro last
  have hsafe : ∀ rule ∈ rules, rule.Safe := fun rule hrule => (hbuilt rule hrule).safe
  have hlast := isLeast_saturate semiNaive parallel registry hsafe
    (takeTurns registry rules turns .empty)
  refine ⟨fun semiNaive' parallel' => ?_, fun again hagain => ?_⟩
  · have hholds := (Holds.empty registry rules).takeTurns hsafe turns
    have honce := isLeast_saturate semiNaive' parallel' registry hsafe
      (.extend .empty (assertedFacts turns))
    have hfacts : (FactStore.empty.extend (assertedFacts turns)).factSet =
        ∅ ∪ {f | f ∈ assertedFacts turns} := by
      ext f
      simp [FactStore.factSet_extend]
    simp only [hfacts,
      ← isModel_iff_of_between hholds.asserted_subset hholds.subset_leastModel] at honce
    exact hlast.unique honce
  · exact saturate_of_closed hsafe hlast.1.closed hagain

/-- The two links of a chain, asserted before and after a parallel run that is stopped after one
    pass. -/
theorem saturate_interleaved_chain :
    let turns := [Turn.assert chainFacts[0], .saturate ⟨true, true, some 1⟩,
      .assert chainFacts[1]]
    let last := (saturate ⟨false, false, none⟩ .empty closureRules
      (takeTurns .empty closureRules turns .empty)).2
    last.factSet = (saturate ⟨true, false, none⟩ .empty closureRules chainStore).2.factSet ∧
      saturate ⟨true, true, some 3⟩ .empty closureRules last = (⟨1, true, #[], 0, []⟩, last) := by
  intro turns last
  obtain ⟨honce, hagain⟩ :=
    saturate_interleaved .empty isBuilt_closureRules turns false false
  exact ⟨honce true false, hagain ⟨true, true, some 3⟩ (by decide)⟩

end HornOntology
