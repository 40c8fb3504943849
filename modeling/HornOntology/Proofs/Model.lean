import HornOntology.Builtin
import HornOntology.FactStore
import HornOntology.Proofs.Lists
import HornOntology.Rule
import Mathlib.Data.List.Forall2
import Mathlib.Data.Set.Lattice
import Mathlib.Order.Bounds.Basic

set_option autoImplicit false

/-! # Models of rules

What rules mean, whatever the way in which they are applied. A `Valuation` gives an entity to
every variable; an atom holds of a valuation in a set of facts if the fact it states is in the set,
or if the comparison it makes is true. A rule fires at a valuation under which its whole body
holds, and a set of facts is closed under the rule if the head holds too whenever it fires.

The models of rules over initial facts are the closed sets that contain these facts. Rules that
pass the check have a least one, `leastModel` (`isLeast_leastModel`). Neither the order of the
rules nor that of the atoms inside them plays a part (`SameUpToOrder.isModel_congr`). -/

namespace HornOntology

/-- The facts of a store, as a set. -/
def FactStore.factSet (s : FactStore) : Set Fact := {f | f ∈ s.toList}

@[simp] theorem FactStore.mem_factSet (s : FactStore) (f : Fact) :
    f ∈ s.factSet ↔ f ∈ s.toList := Iff.rfl

@[simp] theorem FactStore.toList_empty : FactStore.empty.toList = [] := rfl

theorem FactStore.factSet_assert (s : FactStore) (fact : Fact) :
    (s.assert fact).factSet = insert fact s.factSet := by
  ext f
  by_cases h : fact ∈ s.toList
  · have hself : f = fact → f ∈ s.toList := fun e => e ▸ h
    rw [mem_factSet, toList_assert, if_pos h]
    exact (or_iff_right_of_imp hself).symm
  · simp [toList_assert, h, or_comm]

/-- The order in which facts are asserted does not show in the set of facts. -/
theorem FactStore.factSet_extend (s : FactStore) (facts : List Fact) :
    (s.extend facts).factSet = s.factSet ∪ {f | f ∈ facts} := by
  unfold extend
  induction facts generalizing s with
  | nil => simp
  | cons fact facts ih =>
    rw [List.foldl_cons, ih, factSet_assert]
    ext f
    simp only [Set.mem_union, Set.mem_insert_iff, Set.mem_ofPred_eq, List.mem_cons]
    exact or_assoc.trans or_left_comm

/-- Facts are stored in the order of their first assertion. -/
theorem FactStore.toList_extend (s : FactStore) (facts : List Fact) :
    (s.extend facts).toList = (s.toList ++ facts).eraseDups := by
  unfold extend
  induction facts generalizing s with
  | nil =>
    rw [List.foldl_nil, List.append_nil]
    exact (eraseDups_of_nodup s.nodup).symm
  | cons fact facts ih =>
    rw [List.foldl_cons, ih, toList_assert]
    by_cases hold : fact ∈ s.toList
    · rw [if_pos hold, eraseDups_append_cons_of_mem hold]
    · rw [if_neg hold, List.append_assoc, List.singleton_append]

/-! ## Atoms under a valuation -/

/-- An entity for every variable. -/
abbrev Valuation := Variable → EntityId

/-- The entity of a term. -/
def Term.valueAt (σ : Valuation) : Term EntityId → EntityId
  | .const id => id
  | .var v => σ v

/-- The fact that a class or property atom states. -/
def Atom.factAt (σ : Valuation) : Atom EntityId → Option Fact
  | .member cls arg => some (.member (arg.valueAt σ) cls)
  | .link property subject object =>
    some (.link property (subject.valueAt σ) (object.valueAt σ))
  | .builtin _ _ => none

/-- Whether an atom is true: the fact it states is among the given ones, or the comparison it makes
    is true of its two arguments. -/
def Atom.HoldsIn (registry : Registry) (facts : Set Fact) (σ : Valuation) :
    Atom EntityId → Prop
  | .member cls arg => Fact.member (arg.valueAt σ) cls ∈ facts
  | .link property subject object =>
    Fact.link property (subject.valueAt σ) (object.valueAt σ) ∈ facts
  | .builtin op args =>
    ∃ left right, args.map (Term.valueAt σ) = [left, right] ∧ op.holds registry left right = true

theorem Atom.holdsIn_of_factAt {registry : Registry} {facts : Set Fact} {σ : Valuation}
    {atom : Atom EntityId} {f : Fact} (h : atom.factAt σ = some f) :
    atom.HoldsIn registry facts σ ↔ f ∈ facts := by
  cases atom with
  | member cls arg =>
    simp only [Atom.factAt, Option.some.injEq] at h
    subst h
    exact Iff.rfl
  | link property subject object =>
    simp only [Atom.factAt, Option.some.injEq] at h
    subst h
    exact Iff.rfl
  | builtin op args => simp [Atom.factAt] at h

theorem Atom.exists_factAt {atom : Atom EntityId} (h : atom.isRelational = true)
    (σ : Valuation) : ∃ f, atom.factAt σ = some f := by
  cases atom with
  | member cls arg => exact ⟨_, rfl⟩
  | link property subject object => exact ⟨_, rfl⟩
  | builtin op args => simp [Atom.isRelational] at h

/-- The truth of an atom depends on the facts with its own predicate alone. -/
theorem Atom.HoldsIn.imp {registry : Registry} {facts facts' : Set Fact} {σ : Valuation}
    {atom : Atom EntityId} (h : atom.HoldsIn registry facts σ)
    (hsub : ∀ f ∈ facts, atom.predicate? = some f.predicate → f ∈ facts') :
    atom.HoldsIn registry facts' σ := by
  cases atom with
  | member cls arg => exact hsub _ h rfl
  | link property subject object => exact hsub _ h rfl
  | builtin op args => exact h

/-- A variable of a class or property atom that holds stands for an argument of a fact. -/
theorem Atom.HoldsIn.exists_argument {registry : Registry} {facts : Set Fact} {σ : Valuation}
    {atom : Atom EntityId} (h : atom.HoldsIn registry facts σ)
    (hrel : atom.isRelational = true) {v : Variable} (hv : v ∈ atom.vars) :
    ∃ f ∈ facts, σ v ∈ f.arguments := by
  have hvalue {t : Term EntityId} (ht : t.var? = some v) : t.valueAt σ = σ v := by
    cases t with
    | const id => simp [Term.var?] at ht
    | var w =>
      simp only [Term.var?, Option.some.injEq] at ht
      rw [Term.valueAt, ht]
  simp only [Atom.vars, List.mem_filterMap] at hv
  obtain ⟨t, ht, htv⟩ := hv
  cases atom with
  | member cls arg =>
    simp only [Atom.terms, List.mem_singleton] at ht
    subst ht
    exact ⟨_, h, by simp [Fact.arguments, hvalue htv]⟩
  | link property subject object =>
    simp only [Atom.terms, List.mem_cons, List.not_mem_nil, or_false] at ht
    refine ⟨_, h, ?_⟩
    rcases ht with rfl | rfl
    · simp [Fact.arguments, hvalue htv]
    · simp [Fact.arguments, hvalue htv]
  | builtin op args => simp [Atom.isRelational] at hrel

theorem mem_boundVariables {κ : Type} {body : List (Atom κ)} {v : Variable} :
    v ∈ boundVariables body ↔ ∃ atom ∈ body, atom.isRelational = true ∧ v ∈ atom.vars := by
  simp only [boundVariables, List.mem_flatMap, List.mem_filter, and_assoc]

/-! ## Rules that pass the check -/

variable {κ : Type}

theorem checkBody_eq_ok_iff {name : String} {body : List (Atom κ)} :
    checkBody name body = .ok () ↔ body ≠ [] ∧ ∀ atom ∈ body, atom.wrongArity? = none := by
  unfold checkBody
  by_cases hempty : body = []
  · simp [hempty]
  · rw [if_neg (by simpa using hempty)]
    cases hwrong : body.findSome? Atom.wrongArity? with
    | none => simpa [hempty] using List.findSome?_eq_none_iff.1 hwrong
    | some wrong =>
      obtain ⟨atom, hatom, harity⟩ := List.exists_of_findSome?_eq_some hwrong
      simp only [reduceCtorEq, false_iff, not_and]
      intro _ hall
      simp [hall atom hatom] at harity

/-- Parts make a rule exactly if the body and every atom of the head pass their checks. -/
theorem Rule.ofParts_eq_ok_iff [DecidableEq κ] {name : String} {body head : List (Atom κ)}
    {rule : Rule κ} :
    ofParts name body head = .ok rule ↔
      checkBody name body = .ok () ∧
        head.eraseDups.findSome? (headError? name (boundVariables body)) = none ∧
        rule = ⟨name, body, head.eraseDups⟩ := by
  cases hcheck : checkBody name body with
  | error e => simp [ofParts, hcheck, bind, Except.bind]
  | ok u =>
    cases hfind : head.eraseDups.findSome? (headError? name (boundVariables body)) <;>
      simp only [ofParts, hcheck, hfind, bind, Except.bind] <;> simp [eq_comm]

theorem Query.ofParts_eq_ok_iff {name : String} {body : List (Atom κ)}
    {projection : List Variable} {distinct : Bool} {query : Query κ} :
    ofParts name body projection distinct = .ok query ↔
      checkBody name body = .ok () ∧
        projection.find? (fun v => !(boundVariables body).contains v) = none ∧
        query = ⟨name, body, projection, distinct⟩ := by
  cases hcheck : checkBody name body with
  | error e => simp [ofParts, hcheck, bind, Except.bind]
  | ok u =>
    cases hfind : projection.find? (fun v => !(boundVariables body).contains v) <;>
      simp only [ofParts, hcheck, hfind, bind, Except.bind] <;> simp [eq_comm]

namespace Rule

/-- The rule was made from parts by the check. -/
def IsBuilt [DecidableEq κ] (rule : Rule κ) : Prop :=
  ∃ (name : String) (body head : List (Atom κ)), ofParts name body head = .ok rule

/-- The head states facts only, and the class and property atoms of the body bind its variables. -/
def Safe (rule : Rule κ) : Prop :=
  ∀ atom ∈ rule.head,
    atom.isRelational = true ∧ ∀ v ∈ atom.vars, v ∈ boundVariables rule.body

theorem headError?_eq_none {name : String} {bound : List Variable} {atom : Atom κ}
    (h : headError? name bound atom = none) :
    atom.isRelational = true ∧ ∀ v ∈ atom.vars, v ∈ bound := by
  cases atom with
  | builtin op args => simp [headError?] at h
  | member cls arg =>
    simp only [headError?, Option.map_eq_none_iff, List.find?_eq_none] at h
    exact ⟨rfl, by simpa using h⟩
  | link property subject object =>
    simp only [headError?, Option.map_eq_none_iff, List.find?_eq_none] at h
    exact ⟨rfl, by simpa using h⟩

theorem IsBuilt.safe [DecidableEq κ] {rule : Rule κ} (h : rule.IsBuilt) : rule.Safe := by
  obtain ⟨name, body, head, hparts⟩ := h
  obtain ⟨-, hnone, rfl⟩ := ofParts_eq_ok_iff.1 hparts
  intro atom hatom
  exact headError?_eq_none (List.findSome?_eq_none_iff.1 hnone atom hatom)

end Rule

/-! ## Firing and closedness -/

namespace Rule

variable {registry : Registry} {rule : Rule EntityId} {facts facts' : Set Fact}
  {σ : Valuation}

/-- The whole body holds. A comparison of a variable that no class or property atom of the body
    binds counts as false. -/
def Fires (registry : Registry) (rule : Rule EntityId) (facts : Set Fact) (σ : Valuation) : Prop :=
  ∀ atom ∈ rule.body,
    atom.HoldsIn registry facts σ ∧ ∀ v ∈ atom.vars, v ∈ boundVariables rule.body

/-- Wherever the rule fires, its whole head holds. -/
def ClosedIn (registry : Registry) (rule : Rule EntityId) (facts : Set Fact) : Prop :=
  ∀ σ, rule.Fires registry facts σ → ∀ atom ∈ rule.head, atom.HoldsIn registry facts σ

/-- The facts that the head states where the rule fires. -/
def consequences (registry : Registry) (rule : Rule EntityId) (facts : Set Fact) : Set Fact :=
  {f | ∃ σ, rule.Fires registry facts σ ∧ ∃ atom ∈ rule.head, atom.factAt σ = some f}

/-- Whether a rule fires depends on the facts with a predicate of its body alone. -/
theorem Fires.imp (h : rule.Fires registry facts σ)
    (hsub : ∀ f ∈ facts, f.predicate ∈ rule.bodyPredicates → f ∈ facts') :
    rule.Fires registry facts' σ := by
  intro atom hatom
  obtain ⟨hholds, hbound⟩ := h atom hatom
  refine ⟨hholds.imp (fun f hf hpred => hsub f hf ?_), hbound⟩
  exact List.mem_filterMap.2 ⟨atom, hatom, hpred⟩

/-- Where a rule fires, the variables its body binds stand for arguments of facts. -/
theorem Fires.exists_argument (h : rule.Fires registry facts σ) {v : Variable}
    (hv : v ∈ boundVariables rule.body) : ∃ f ∈ facts, σ v ∈ f.arguments := by
  obtain ⟨atom, hatom, hrel, hvar⟩ := mem_boundVariables.1 hv
  exact (h atom hatom).1.exists_argument hrel hvar

theorem consequences_subset_of_predicates
    (hsub : ∀ f ∈ facts, f.predicate ∈ rule.bodyPredicates → f ∈ facts') :
    rule.consequences registry facts ⊆ rule.consequences registry facts' := by
  rintro f ⟨σ, hfires, hhead⟩
  exact ⟨σ, hfires.imp hsub, hhead⟩

theorem consequences_mono (hsub : facts ⊆ facts') :
    rule.consequences registry facts ⊆ rule.consequences registry facts' :=
  consequences_subset_of_predicates (fun _ hf _ => hsub hf)

theorem closedIn_iff (hsafe : rule.Safe) :
    rule.ClosedIn registry facts ↔ rule.consequences registry facts ⊆ facts := by
  constructor
  · rintro hclosed f ⟨σ, hfires, atom, hatom, hf⟩
    exact (Atom.holdsIn_of_factAt hf).1 (hclosed σ hfires atom hatom)
  · intro hsub σ hfires atom hatom
    obtain ⟨f, hf⟩ := Atom.exists_factAt (hsafe atom hatom).1 σ
    exact (Atom.holdsIn_of_factAt hf).2 (hsub ⟨σ, hfires, atom, hatom, hf⟩)

end Rule

/-! ## Models -/

/-- The facts contain the initial ones and are closed under every rule. -/
structure IsModel (registry : Registry) (rules : List (Rule EntityId)) (initial facts : Set Fact) :
    Prop where
  initial_subset : initial ⊆ facts
  closed : ∀ rule ∈ rules, rule.ClosedIn registry facts

/-- What all models have in common. -/
def leastModel (registry : Registry) (rules : List (Rule EntityId)) (initial : Set Fact) :
    Set Fact :=
  ⋂₀ {facts | IsModel registry rules initial facts}

theorem isLeast_leastModel (registry : Registry) {rules : List (Rule EntityId)}
    (hsafe : ∀ rule ∈ rules, rule.Safe) (initial : Set Fact) :
    IsLeast {facts | IsModel registry rules initial facts} (leastModel registry rules initial) := by
  refine ⟨⟨?_, ?_⟩, fun facts hmodel => Set.sInter_subset_of_mem hmodel⟩
  · exact Set.subset_sInter (fun facts hmodel => hmodel.initial_subset)
  · intro rule hrule
    rw [Rule.closedIn_iff (hsafe rule hrule)]
    refine Set.subset_sInter (fun facts hmodel => ?_)
    have hsub : leastModel registry rules initial ⊆ facts := Set.sInter_subset_of_mem hmodel
    exact (Rule.consequences_mono hsub).trans
      ((Rule.closedIn_iff (hsafe rule hrule)).1 (hmodel.closed rule hrule))

/-! ## Order does not matter -/

/-- The two rules differ in the order of their atoms, and maybe in their names, only. -/
structure Rule.Reordered {κ : Type} (rule rule' : Rule κ) : Prop where
  body : rule.body.Perm rule'.body
  head : rule.head.Perm rule'.head

/-- The two lists hold the same rules up to order, of the rules and inside each rule. -/
def SameUpToOrder {κ : Type} (rules rules' : List (Rule κ)) : Prop :=
  ∃ middle, rules.Perm middle ∧ List.Forall₂ Rule.Reordered middle rules'

theorem mem_boundVariables_congr {κ : Type} {body body' : List (Atom κ)}
    (h : body.Perm body') (v : Variable) :
    v ∈ boundVariables body ↔ v ∈ boundVariables body' := by
  simp only [mem_boundVariables, h.mem_iff]

namespace Rule.Reordered

variable {rule rule' : Rule EntityId}

theorem safe (h : rule.Reordered rule') (hsafe : rule.Safe) : rule'.Safe := by
  intro atom hatom
  obtain ⟨hrel, hbound⟩ := hsafe atom (h.head.mem_iff.2 hatom)
  exact ⟨hrel, fun v hv => (mem_boundVariables_congr h.body v).1 (hbound v hv)⟩

theorem closedIn_congr (h : rule.Reordered rule') (registry : Registry) (facts : Set Fact) :
    rule.ClosedIn registry facts ↔ rule'.ClosedIn registry facts := by
  simp only [Rule.ClosedIn, Rule.Fires, h.body.mem_iff, h.head.mem_iff,
    mem_boundVariables_congr h.body]

end Rule.Reordered

theorem forall₂_exists_right {α β : Type} {R : α → β → Prop} {as : List α} {bs : List β}
    (h : List.Forall₂ R as bs) : ∀ a ∈ as, ∃ b ∈ bs, R a b := by
  induction h with
  | nil => intro a ha; exact absurd ha (by simp)
  | cons hab _ ih =>
    intro a ha
    rcases List.mem_cons.1 ha with rfl | ha'
    · exact ⟨_, List.mem_cons_self, hab⟩
    · obtain ⟨b, hb, hR⟩ := ih a ha'
      exact ⟨b, List.mem_cons_of_mem _ hb, hR⟩

namespace SameUpToOrder

variable {rules rules' : List (Rule EntityId)}

theorem exists_right (h : SameUpToOrder rules rules') :
    ∀ rule ∈ rules, ∃ rule' ∈ rules', rule.Reordered rule' := by
  obtain ⟨middle, hperm, hall⟩ := h
  intro rule hrule
  exact forall₂_exists_right hall rule (hperm.mem_iff.1 hrule)

theorem exists_left (h : SameUpToOrder rules rules') :
    ∀ rule' ∈ rules', ∃ rule ∈ rules, rule.Reordered rule' := by
  obtain ⟨middle, hperm, hall⟩ := h
  intro rule' hrule'
  obtain ⟨rule, hrule, hreordered⟩ :=
    forall₂_exists_right (R := fun r' r => Rule.Reordered r r') hall.flip rule' hrule'
  exact ⟨rule, hperm.mem_iff.2 hrule, hreordered⟩

theorem safe (h : SameUpToOrder rules rules') (hsafe : ∀ rule ∈ rules, rule.Safe) :
    ∀ rule ∈ rules', rule.Safe := by
  intro rule' hrule'
  obtain ⟨rule, hrule, hreordered⟩ := h.exists_left rule' hrule'
  exact hreordered.safe (hsafe rule hrule)

/-- Rules that are the same up to order have the same models. -/
theorem isModel_congr (h : SameUpToOrder rules rules') (registry : Registry)
    (initial facts : Set Fact) :
    IsModel registry rules initial facts ↔ IsModel registry rules' initial facts := by
  constructor
  · rintro ⟨hinitial, hclosed⟩
    refine ⟨hinitial, fun rule' hrule' => ?_⟩
    obtain ⟨rule, hrule, hreordered⟩ := h.exists_left rule' hrule'
    exact (hreordered.closedIn_congr registry facts).1 (hclosed rule hrule)
  · rintro ⟨hinitial, hclosed⟩
    refine ⟨hinitial, fun rule hrule => ?_⟩
    obtain ⟨rule', hrule', hreordered⟩ := h.exists_right rule hrule
    exact (hreordered.closedIn_congr registry facts).2 (hclosed rule' hrule')

end SameUpToOrder

/-! ## An example -/

/-- The identifiers of examples, counted from zero. -/
def EntityId.nth (n : Nat) : EntityId := (ofRaw? (.ofNat (n + 1))).getD ⟨1, by decide⟩

/-- The rules of a transitive closure without loops: the second property contains the first, and
    leads on from `y` to `z` unless that closes a loop. -/
def closureRules : List (Rule EntityId) :=
  let p : EntityId := ⟨1, by decide⟩
  let q : EntityId := ⟨2, by decide⟩
  let x := Term.var ⟨"x"⟩
  let y := Term.var ⟨"y"⟩
  let z := Term.var ⟨"z"⟩
  [⟨"first", [.link p x y], [.link q x y]⟩,
    ⟨"further", [.link q x y, .builtin .notEqual [x, z], .link p y z], [.link q x z]⟩]

/-- A chain of two links of the first property. -/
def chainFacts : List Fact :=
  let p : EntityId := ⟨1, by decide⟩
  [.link p ⟨3, by decide⟩ ⟨4, by decide⟩, .link p ⟨4, by decide⟩ ⟨5, by decide⟩]

/-- The store of the chain. -/
def chainStore : FactStore := FactStore.empty.extend chainFacts

theorem isBuilt_closureRules : ∀ rule ∈ closureRules, rule.IsBuilt := by
  have hparts : ∀ rule ∈ closureRules,
      Rule.ofParts rule.name rule.body rule.head = .ok rule := by
    simp only [closureRules, List.forall_mem_cons]
    exact ⟨rfl, rfl, by simp⟩
  exact fun rule hrule => ⟨_, _, _, hparts rule hrule⟩

theorem toList_chainStore : chainStore.toList = chainFacts := by
  simp [chainStore, FactStore.extend, FactStore.toList_assert, chainFacts]

end HornOntology
