import HornOntology.Proofs.Saturation.Run
import Mathlib.Data.Finset.Prod

set_option autoImplicit false

/-! # Reaching the fixpoint

Rules invent no entities: an argument of a fact that they conclude stands in an initial fact or in
a head, so only finitely many facts can be added (`possibleFacts`). As every pass but the last adds
one, a run without a limit ends, and it ends with the least model. -/

namespace HornOntology

/-! ## The facts that can be added -/

/-- The class of a class atom. -/
def Atom.cls? {κ : Type} : Atom κ → Option EntityId
  | member cls _ => some cls
  | link _ _ _ | builtin _ _ => none

/-- The property of a property atom. -/
def Atom.property? {κ : Type} : Atom κ → Option EntityId
  | link property _ _ => some property
  | member _ _ | builtin _ _ => none

/-- The classes that rules conclude memberships of. -/
def headClasses (rules : List (Rule EntityId)) : Finset EntityId :=
  ((rules.flatMap Rule.head).filterMap Atom.cls?).toFinset

/-- The properties that rules conclude links of. -/
def headProperties (rules : List (Rule EntityId)) : Finset EntityId :=
  ((rules.flatMap Rule.head).filterMap Atom.property?).toFinset

/-- The arguments of the initial facts and the constants of the heads. -/
def activeDomain (rules : List (Rule EntityId)) (store : FactStore) : Finset EntityId :=
  (store.toList.flatMap Fact.arguments ++
    ((rules.flatMap Rule.head).flatMap Atom.terms).filterMap Term.const?).toFinset

/-- The memberships and links of the given classes and properties among the given entities. -/
def factsAmong (classes properties domain : Finset EntityId) : Finset Fact :=
  ((classes ×ˢ domain).image fun (cls, i) => Fact.member i cls) ∪
    ((properties ×ˢ domain ×ˢ domain).image fun (property, s, o) => Fact.link property s o)

/-- The facts that rules can add to a store. -/
def possibleFacts (rules : List (Rule EntityId)) (store : FactStore) : Finset Fact :=
  factsAmong (headClasses rules) (headProperties rules) (activeDomain rules store)

theorem mem_activeDomain {rules : List (Rule EntityId)} {store : FactStore} {a : EntityId} :
    a ∈ activeDomain rules store ↔
      (∃ f ∈ store.toList, a ∈ f.arguments) ∨
        ∃ rule ∈ rules, ∃ atom ∈ rule.head, Term.const a ∈ atom.terms := by
  have hconst (t : Term EntityId) : t.const? = some a ↔ t = .const a := by
    cases t <;> simp [Term.const?]
  simp only [activeDomain, List.mem_toFinset, List.mem_append, List.mem_flatMap,
    List.mem_filterMap, hconst, exists_eq_right]
  constructor
  · rintro (hfact | ⟨atom, ⟨rule, hrule, hatom⟩, hterm⟩)
    · exact Or.inl hfact
    · exact Or.inr ⟨rule, hrule, atom, hatom, hterm⟩
  · rintro (hfact | ⟨rule, hrule, atom, hatom, hterm⟩)
    · exact Or.inl hfact
    · exact Or.inr ⟨atom, ⟨rule, hrule, hatom⟩, hterm⟩

section FactsAmong

variable {classes properties domain : Finset EntityId}

@[simp] theorem member_mem_factsAmong {i cls : EntityId} :
    Fact.member i cls ∈ factsAmong classes properties domain ↔ cls ∈ classes ∧ i ∈ domain := by
  simp [factsAmong]

@[simp] theorem link_mem_factsAmong {property s o : EntityId} :
    Fact.link property s o ∈ factsAmong classes properties domain ↔
      property ∈ properties ∧ s ∈ domain ∧ o ∈ domain := by
  simp [factsAmong]

theorem card_factsAmong_le :
    (factsAmong classes properties domain).card ≤
      classes.card * domain.card + properties.card * domain.card * domain.card := by
  refine (Finset.card_union_le _ _).trans (Nat.add_le_add ?_ ?_)
  · exact Finset.card_image_le.trans (Finset.card_product _ _).le
  · refine Finset.card_image_le.trans (le_of_eq ?_)
    rw [Finset.card_product, Finset.card_product, Nat.mul_assoc]

theorem argument_mem_of_mem_factsAmong {f : Fact} (hf : f ∈ factsAmong classes properties domain)
    {a : EntityId} (ha : a ∈ f.arguments) : a ∈ domain := by
  cases f with
  | member i cls =>
    simp only [Fact.arguments, List.mem_singleton] at ha
    rw [ha]
    exact (member_mem_factsAmong.1 hf).2
  | link property s o =>
    simp only [Fact.arguments, List.mem_cons, List.not_mem_nil, or_false] at ha
    obtain ⟨-, hs, ho⟩ := link_mem_factsAmong.1 hf
    rcases ha with rfl | rfl
    · exact hs
    · exact ho

end FactsAmong

/-! ## Rules invent no entities -/

section Possible

variable {registry : Registry} {rules : List (Rule EntityId)} {store : FactStore}

/-- Where a rule fires among possible facts, the terms of its head stand for known entities. -/
theorem valueAt_mem_activeDomain {rule : Rule EntityId} (hrule : rule ∈ rules)
    (hsafe : rule.Safe) {σ : Valuation}
    (hfires : rule.Fires registry (store.factSet ∪ possibleFacts rules store) σ)
    {atom : Atom EntityId} (hatom : atom ∈ rule.head) {t : Term EntityId} (ht : t ∈ atom.terms) :
    t.valueAt σ ∈ activeDomain rules store := by
  cases t with
  | const a => exact mem_activeDomain.2 (Or.inr ⟨rule, hrule, atom, hatom, ht⟩)
  | var v =>
    have hv : v ∈ atom.vars := List.mem_filterMap.2 ⟨_, ht, rfl⟩
    obtain ⟨f, hf | hf, harg⟩ := hfires.exists_argument ((hsafe atom hatom).2 v hv)
    · exact mem_activeDomain.2 (Or.inl ⟨f, hf, harg⟩)
    · exact argument_mem_of_mem_factsAmong hf harg

/-- The initial facts together with the possible ones are a model. -/
theorem isModel_possibleFacts (hsafe : ∀ rule ∈ rules, rule.Safe) :
    IsModel registry rules store.factSet (store.factSet ∪ possibleFacts rules store) := by
  refine ⟨Set.subset_union_left, fun rule hrule => ?_⟩
  rw [Rule.closedIn_iff (hsafe rule hrule)]
  rintro f ⟨σ, hfires, atom, hatom, hfact⟩
  have hhead : atom ∈ rules.flatMap Rule.head := List.mem_flatMap.2 ⟨rule, hrule, hatom⟩
  have hvalue {t : Term EntityId} (ht : t ∈ atom.terms) :
      t.valueAt σ ∈ activeDomain rules store :=
    valueAt_mem_activeDomain hrule (hsafe rule hrule) hfires hatom ht
  refine Or.inr ?_
  cases atom with
  | member cls arg =>
    simp only [Atom.factAt, Option.some.injEq] at hfact
    subst hfact
    refine member_mem_factsAmong.2 ⟨?_, hvalue (by simp [Atom.terms])⟩
    exact List.mem_toFinset.2 (List.mem_filterMap.2 ⟨_, hhead, rfl⟩)
  | link property subject object =>
    simp only [Atom.factAt, Option.some.injEq] at hfact
    subst hfact
    refine link_mem_factsAmong.2 ⟨?_, hvalue (by simp [Atom.terms]), hvalue (by simp [Atom.terms])⟩
    exact List.mem_toFinset.2 (List.mem_filterMap.2 ⟨_, hhead, rfl⟩)
  | builtin op args => simp [Atom.factAt] at hfact

/-- The predicate of a possible fact is that of a head atom. -/
theorem exists_head_of_mem_possibleFacts {f : Fact} (hf : f ∈ possibleFacts rules store) :
    ∃ rule ∈ rules, ∃ atom ∈ rule.head, atom.predicate? = some f.predicate := by
  cases f with
  | member i cls =>
    have hcls := (member_mem_factsAmong.1 hf).1
    simp only [headClasses, List.mem_toFinset, List.mem_filterMap, List.mem_flatMap] at hcls
    obtain ⟨atom, ⟨rule, hrule, hatom⟩, hpred⟩ := hcls
    refine ⟨rule, hrule, atom, hatom, ?_⟩
    cases atom <;> simp_all [Atom.cls?, Atom.predicate?, Fact.predicate]
  | link property s o =>
    have hproperty := (link_mem_factsAmong.1 hf).1
    simp only [headProperties, List.mem_toFinset, List.mem_filterMap, List.mem_flatMap] at hproperty
    obtain ⟨atom, ⟨rule, hrule, hatom⟩, hpred⟩ := hproperty
    refine ⟨rule, hrule, atom, hatom, ?_⟩
    cases atom <;> simp_all [Atom.property?, Atom.predicate?, Fact.predicate]

theorem length_arguments_le (facts : List Fact) :
    (facts.flatMap Fact.arguments).length ≤ 2 * facts.length := by
  induction facts with
  | nil => simp
  | cons f facts ih =>
    have hf : f.arguments.length ≤ 2 := by cases f <;> simp [Fact.arguments]
    rw [List.flatMap_cons, List.length_append, List.length_cons]
    omega

theorem card_activeDomain_le (rules : List (Rule EntityId)) (store : FactStore) :
    (activeDomain rules store).card ≤
      2 * store.size + ((rules.flatMap Rule.head).flatMap Atom.terms).length := by
  refine (List.toFinset_card_le _).trans ?_
  rw [List.length_append]
  exact Nat.add_le_add (length_arguments_le store.toList) (List.length_filterMap_le _ _)

/-- There are fewer possible facts than passes to spend. -/
theorem card_possibleFacts_lt (rules : List (Rule EntityId)) (store : FactStore) :
    (possibleFacts rules store).card < passBound rules store := by
  have hclasses : (headClasses rules).card ≤ (rules.flatMap Rule.head).length :=
    (List.toFinset_card_le _).trans (List.length_filterMap_le _ _)
  have hproperties : (headProperties rules).card ≤ (rules.flatMap Rule.head).length :=
    (List.toFinset_card_le _).trans (List.length_filterMap_le _ _)
  have hdomain := card_activeDomain_le rules store
  refine Nat.lt_succ_of_le (card_factsAmong_le.trans ?_)
  rw [Nat.mul_add, ← Nat.mul_assoc]
  exact Nat.add_le_add (Nat.mul_le_mul hclasses hdomain)
    (Nat.mul_le_mul (Nat.mul_le_mul hproperties hdomain) hdomain)

end Possible

namespace Ended

variable {registry : Registry} {rules : List (Rule EntityId)} {store : FactStore} {fuel : Nat}
  {result : Saturation × FactStore}

/-- Every fact that a run adds is a possible one. -/
theorem derived_mem_possibleFacts (hsafe : ∀ rule ∈ rules, rule.Safe)
    (h : Ended registry rules store fuel result) :
    ∀ f ∈ result.1.derived.toList.map Derivation.fact, f ∈ possibleFacts rules store := by
  intro f hf
  have hnodup : result.2.toList.Nodup := result.2.nodup
  rw [h.toList_eq, List.nodup_append] at hnodup
  have hmem : f ∈ result.2.factSet := by
    rw [FactStore.mem_factSet, h.toList_eq]
    exact List.mem_append_right _ hf
  -- a fact that is stored from the beginning is not derived
  have hnew : f ∉ store.factSet := fun hold => hnodup.2.2 f hold f hf rfl
  exact (h.sound _ (isModel_possibleFacts hsafe) hmem).resolve_left hnew

theorem applied_le_card (hsafe : ∀ rule ∈ rules, rule.Safe)
    (h : Ended registry rules store fuel result) :
    result.1.applied ≤ (possibleFacts rules store).card := by
  have hnodup : result.2.toList.Nodup := result.2.nodup
  rw [h.toList_eq, List.nodup_append] at hnodup
  calc result.1.applied
      = (result.1.derived.toList.map Derivation.fact).length := by
        rw [List.length_map, Array.length_toList, h.applied_eq]
    _ = (result.1.derived.toList.map Derivation.fact).toFinset.card :=
        (List.toFinset_card_of_nodup hnodup.2.1).symm
    _ ≤ (possibleFacts rules store).card :=
        Finset.card_le_card (fun f hf =>
          h.derived_mem_possibleFacts hsafe f (List.mem_toFinset.1 hf))

end Ended

/-- A run without a limit reaches a fixpoint. -/
theorem reachedFixpoint_saturate (semiNaive parallel : Bool) (registry : Registry)
    {rules : List (Rule EntityId)} (hsafe : ∀ rule ∈ rules, rule.Safe) (store : FactStore) :
    (saturate ⟨semiNaive, parallel, none⟩ registry rules store).1.reachedFixpoint = true := by
  have hended := ended_saturate ⟨semiNaive, parallel, none⟩ registry hsafe store
  have happlied := hended.applied_le_card hsafe
  have hbound := card_possibleFacts_lt rules store
  by_contra hnot
  -- every pass would have recorded a possible fact, and there are not that many
  have hspent : passBound rules store ≤ _ := hended.spent (by simpa using hnot)
  omega

/-! ## Runs without a limit -/

theorem isLeast_saturate (semiNaive parallel : Bool) (registry : Registry)
    {rules : List (Rule EntityId)} (hsafe : ∀ rule ∈ rules, rule.Safe) (store : FactStore) :
    IsLeast {facts | IsModel registry rules store.factSet facts}
      (saturate ⟨semiNaive, parallel, none⟩ registry rules store).2.factSet :=
  (ended_saturate ⟨semiNaive, parallel, none⟩ registry hsafe store).isLeast
    (reachedFixpoint_saturate semiNaive parallel registry hsafe store)

/-- A limit that cannot be reached is no limit. -/
theorem saturate_limit_eq (registry : Registry) {rules : List (Rule EntityId)}
    (hsafe : ∀ rule ∈ rules, rule.Safe) (store : FactStore) (semiNaive parallel : Bool)
    {limit : Nat} (hlimit : passBound rules store ≤ limit) :
    saturate ⟨semiNaive, parallel, some limit⟩ registry rules store =
      saturate ⟨semiNaive, parallel, none⟩ registry rules store := by
  obtain ⟨more, rfl⟩ := Nat.exists_eq_add_of_le hlimit
  have hfix := reachedFixpoint_saturate semiNaive parallel registry hsafe store
  simp only [saturate, Option.getD_some, Option.getD_none] at hfix ⊢
  rw [saturateFrom_limit semiNaive parallel _ none]
  exact saturateFrom_add hfix more

/-- **Saturation computes the least model.** Without a limit on passes the stored facts end up as
    the least set that contains the initial facts and is closed under every rule. So neither the
    strategy nor any order matters: of the rules, of the atoms in a body or a head, or of the
    assertions that made the initial store. -/
theorem saturate_isLeast_model (registry : Registry) {rules : List (Rule EntityId)}
    (hbuilt : ∀ rule ∈ rules, rule.IsBuilt) (store : FactStore) (semiNaive parallel : Bool) :
    IsLeast {facts | IsModel registry rules store.factSet facts}
        (saturate ⟨semiNaive, parallel, none⟩ registry rules store).2.factSet ∧
      ∀ (semiNaive' parallel' : Bool) (rules' : List (Rule EntityId)) (store' : FactStore),
        SameUpToOrder rules rules' → store'.factSet = store.factSet →
          (saturate ⟨semiNaive', parallel', none⟩ registry rules' store').2.factSet =
            (saturate ⟨semiNaive, parallel, none⟩ registry rules store).2.factSet := by
  have hsafe : ∀ rule ∈ rules, rule.Safe := fun rule hrule => (hbuilt rule hrule).safe
  have hleast := isLeast_saturate semiNaive parallel registry hsafe store
  refine ⟨hleast, fun semiNaive' parallel' rules' store' hsame hstore => ?_⟩
  have hleast' := isLeast_saturate semiNaive' parallel' registry (hsame.safe hsafe) store'
  simp only [hstore, ← hsame.isModel_congr registry] at hleast'
  exact hleast'.unique hleast

/-- The least model over a chain, and the same with everything the other way round. -/
theorem saturate_isLeast_model_chain :
    IsLeast {facts | IsModel .empty closureRules chainStore.factSet facts}
        (saturate ⟨true, false, none⟩ .empty closureRules chainStore).2.factSet ∧
      (saturate ⟨false, true, none⟩ .empty
          (closureRules.reverse.map fun rule =>
            { rule with body := rule.body.reverse, head := rule.head.reverse })
          (.extend .empty chainFacts.reverse)).2.factSet =
        (saturate ⟨true, false, none⟩ .empty closureRules chainStore).2.factSet := by
  obtain ⟨hleast, horder⟩ :=
    saturate_isLeast_model .empty isBuilt_closureRules chainStore true false
  refine ⟨hleast, horder false true _ _ ⟨closureRules.reverse, ?_, ?_⟩ ?_⟩
  · exact (List.reverse_perm _).symm
  · refine List.forall₂_map_right_iff.2 (List.forall₂_same.2 fun rule _ => ⟨?_, ?_⟩)
    · exact (List.reverse_perm rule.body).symm
    · exact (List.reverse_perm rule.head).symm
  · simp only [chainStore, FactStore.factSet_extend, List.mem_reverse]

/-! ## How long runs are -/

/-- **Saturation ends.** Without a limit on passes a run reaches a fixpoint; every pass but the last
    adds a fact, every fact it adds is about known entities and a predicate of some head, and so
    their number is bounded. Any limit that is at least `passBound` is none. With a limit, no more
    passes are made, and a run that reaches a fixpoint leaves facts that are closed under all
    rules. -/
theorem saturate_terminates (registry : Registry) {rules : List (Rule EntityId)}
    (hbuilt : ∀ rule ∈ rules, rule.IsBuilt) (store : FactStore) (semiNaive parallel : Bool) :
    (let run := (saturate ⟨semiNaive, parallel, none⟩ registry rules store).1
     run.reachedFixpoint = true ∧ run.passes ≤ run.applied + 1 ∧
       (∀ d ∈ run.derived.toList,
         (∀ a ∈ d.fact.arguments,
           (∃ f ∈ store.toList, a ∈ f.arguments) ∨
             ∃ rule ∈ rules, ∃ atom ∈ rule.head, Term.const a ∈ atom.terms) ∧
         ∃ rule ∈ rules, ∃ atom ∈ rule.head, atom.predicate? = some d.fact.predicate) ∧
       run.applied ≤ (headClasses rules).card * (activeDomain rules store).card +
         (headProperties rules).card * (activeDomain rules store).card *
           (activeDomain rules store).card) ∧
    (∀ limit, passBound rules store ≤ limit →
      saturate ⟨semiNaive, parallel, some limit⟩ registry rules store =
        saturate ⟨semiNaive, parallel, none⟩ registry rules store) ∧
    ∀ limit,
      let run := saturate ⟨semiNaive, parallel, some limit⟩ registry rules store
      run.1.passes ≤ limit ∧
        (run.1.reachedFixpoint = true →
          ∀ rule ∈ rules, rule.ClosedIn registry run.2.factSet) := by
  have hsafe : ∀ rule ∈ rules, rule.Safe := fun rule hrule => (hbuilt rule hrule).safe
  have hfree := ended_saturate ⟨semiNaive, parallel, none⟩ registry hsafe store
  refine ⟨⟨reachedFixpoint_saturate semiNaive parallel registry hsafe store,
    hfree.passes_le_applied, fun d hd => ?_, (hfree.applied_le_card hsafe).trans card_factsAmong_le⟩,
    fun limit hlimit => saturate_limit_eq registry hsafe store semiNaive parallel hlimit,
    fun limit => ?_⟩
  · have hpossible := hfree.derived_mem_possibleFacts hsafe d.fact (List.mem_map_of_mem hd)
    exact ⟨fun a ha => mem_activeDomain.1 (argument_mem_of_mem_factsAmong hpossible ha),
      exists_head_of_mem_possibleFacts hpossible⟩
  · have hlimited := ended_saturate ⟨semiNaive, parallel, some limit⟩ registry hsafe store
    exact ⟨hlimited.passes_le, hlimited.closed⟩

/-- Over a chain of three entities at most nine links can be added. -/
theorem saturate_terminates_chain :
    (saturate ⟨true, false, none⟩ .empty closureRules chainStore).1.reachedFixpoint = true ∧
      (saturate ⟨true, false, none⟩ .empty closureRules chainStore).1.applied ≤ 9 ∧
      (saturate ⟨true, false, some 1⟩ .empty closureRules chainStore).1.passes ≤ 1 := by
  obtain ⟨⟨hfix, -, -, happlied⟩, -, hlimit⟩ :=
    saturate_terminates .empty isBuilt_closureRules chainStore true false
  have hdomain : (activeDomain closureRules chainStore).card = 3 := by
    rw [activeDomain, toList_chainStore]
    decide
  rw [hdomain] at happlied
  exact ⟨hfix, happlied.trans (by decide), (hlimit 1).1⟩

end HornOntology
