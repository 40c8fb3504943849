import HornOntology.Proofs.Saturation.Run
import Mathlib.Data.String.Basic
import Mathlib.Order.Interval.Set.Basic

set_option autoImplicit false

/-! # The account of a run

A run leaves an account: the facts it added, each with a rule and a pass. The account is exact. It
lists the new facts in the order of the store, and each of them follows, by a rule of the recorded
name, from facts that are stored before it, so that no derivation supports itself (`Advances`).
How often each rule stands in the account is what the statistics count with every fact that is
recorded (`Progress.Tallied`). The passes are recorded in order, and each that added something is
recorded (`AccountedFor`). -/

namespace HornOntology

/-- A rule of the list, with the name that the derivation records, concludes its fact from the
    given facts. -/
def Derivation.Follows (registry : Registry) (rules : List (Rule EntityId)) (facts : Set Fact)
    (d : Derivation) : Prop :=
  ∃ rule ∈ rules, rule.name = d.rule ∧ d.fact ∈ rule.consequences registry facts

namespace Progress

variable {registry : Registry} {rules : List (Rule EntityId)} {passes passes' : Set Nat}
  {p q r : Progress}

/-! ## Facts that follow from earlier ones -/

/-- `q` is `p` with further derivations, which belong to the given passes and each follow from the
    facts that are stored before theirs. -/
def Advances (registry : Registry) (rules : List (Rule EntityId)) (passes : Set Nat)
    (p q : Progress) : Prop :=
  ∃ new : List Derivation,
    q.derived.toList = p.derived.toList ++ new ∧
      q.store.toList = p.store.toList ++ new.map Derivation.fact ∧
      ∀ (k : Nat) (d : Derivation), new[k]? = some d → d.pass ∈ passes ∧
        d.Follows registry rules {f | f ∈ p.store.toList ++ (new.take k).map Derivation.fact}

namespace Advances

theorem refl (registry : Registry) (rules : List (Rule EntityId)) (passes : Set Nat)
    (p : Progress) : Advances registry rules passes p p :=
  ⟨[], by simp⟩

theorem mono (h : Advances registry rules passes p q) (hsub : passes ⊆ passes') :
    Advances registry rules passes' p q := by
  obtain ⟨new, hderived, hstore, hnew⟩ := h
  exact ⟨new, hderived, hstore, fun k d hd => ⟨hsub (hnew k d hd).1, (hnew k d hd).2⟩⟩

theorem trans (hpq : Advances registry rules passes p q)
    (hqr : Advances registry rules passes q r) : Advances registry rules passes p r := by
  obtain ⟨new₁, hderived₁, hstore₁, hnew₁⟩ := hpq
  obtain ⟨new₂, hderived₂, hstore₂, hnew₂⟩ := hqr
  refine ⟨new₁ ++ new₂, ?_, ?_, fun k d hd => ?_⟩
  · rw [hderived₂, hderived₁, List.append_assoc]
  · rw [hstore₂, hstore₁, List.map_append, List.append_assoc]
  · rw [List.getElem?_append] at hd
    split at hd
    · next hlt =>
      rw [List.take_append_of_le_length (Nat.le_of_lt hlt)]
      exact hnew₁ k d hd
    · next hge =>
      -- what stands before a later derivation is all of the first part and some of the second
      have hbefore : p.store.toList ++ ((new₁ ++ new₂).take k).map Derivation.fact =
          q.store.toList ++ (new₂.take (k - new₁.length)).map Derivation.fact := by
        rw [List.take_append, List.take_of_length_le (Nat.le_of_not_lt hge), List.map_append,
          ← List.append_assoc, ← hstore₁]
      rw [hbefore]
      exact hnew₂ _ d hd

theorem subset (h : Advances registry rules passes p q) : p.store.factSet ⊆ q.store.factSet := by
  obtain ⟨new, -, hstore, -⟩ := h
  intro f hf
  rw [FactStore.mem_factSet, hstore]
  exact List.mem_append_left _ hf

end Advances

/-- Recording a fact that a rule concludes from what is stored. -/
theorem advances_record {rule : Rule EntityId} (hrule : rule ∈ rules) {fact : Fact}
    (hfact : fact ∈ rule.consequences registry p.store.factSet) (pass : Nat) :
    Advances registry rules {pass} p (record rule.name pass p fact) := by
  by_cases hold : fact ∈ p.store.toList
  · rw [record_of_mem hold]
    exact .refl registry rules _ p
  · refine ⟨[⟨fact, rule.name, pass⟩], ?_, ?_, fun k d hd => ?_⟩
    · simp [record_of_not_mem hold]
    · simp [record_of_not_mem hold, FactStore.toList_assert, hold]
    · obtain ⟨hk, rfl⟩ := List.getElem?_eq_some_iff.1 hd
      obtain rfl : k = 0 := by simpa using hk
      refine ⟨rfl, rule, hrule, rfl, ?_⟩
      rw [List.take_zero, List.map_nil, List.append_nil]
      exact hfact

/-- Steps that each advance as long as certain facts are stored advance together. -/
theorem advances_foldl {α : Type} {facts : Set Fact} {f : Progress → α → Progress} (as : List α)
    (hf : ∀ a ∈ as, ∀ p : Progress, facts ⊆ p.store.factSet →
      Advances registry rules passes p (f p a))
    (hp : facts ⊆ p.store.factSet) : Advances registry rules passes p (as.foldl f p) := by
  induction as generalizing p with
  | nil => exact .refl registry rules passes p
  | cons a as ih =>
    rw [List.forall_mem_cons] at hf
    have hstep := hf.1 p hp
    exact hstep.trans (ih hf.2 (hp.trans hstep.subset))

theorem advances_apply {rule : Rule EntityId} (hsafe : rule.Safe) (hrule : rule ∈ rules)
    {snapshot : Option FactStore} (hsnapshot : ∀ s ∈ snapshot, s.factSet ⊆ p.store.factSet)
    (pass : Nat) :
    Advances registry rules {pass} p (apply registry pass snapshot p rule) := by
  have hseen := getD_snapshot (P := fun s => s.factSet ⊆ p.store.factSet) hsnapshot
    Set.Subset.rfl
  refine advances_foldl _ (fun fact hfact q hq => ?_) hseen
  exact advances_record hrule
    (Rule.consequences_mono hq ((Matcher.mem_conclusions_iff _ hsafe fact).1 hfact)) pass

/-- A pass over rules of the list advances, in both modes. -/
theorem advances_applyAll (hsafe : ∀ rule ∈ rules, rule.Safe) {applied : List (Rule EntityId)}
    (happlied : ∀ rule ∈ applied, rule ∈ rules) (parallel : Bool) (pass : Nat) (p : Progress) :
    Advances registry rules {pass} p (applyAll registry pass parallel applied p) := by
  refine advances_foldl applied (fun rule hrule q hq => ?_) (Set.Subset.refl p.store.factSet)
  have hmem := happlied rule hrule
  exact advances_apply (hsafe rule hmem) hmem (snapshot_of_store parallel hq) pass

end Progress

/-! ## Statistics -/

/-- The counts are sorted by name, and each name that occurs stands with the number of its
    occurrences. -/
structure Counts (counts : List (String × Nat)) (names : List String) : Prop where
  sorted : counts.Pairwise fun a b => a.1 < b.1
  mem_iff : ∀ name n, (name, n) ∈ counts ↔ 0 < n ∧ n = names.count name

namespace Counts

theorem mem_countName_of_ne {name other : String} (hne : other ≠ name)
    (counts : List (String × Nat)) (n : Nat) :
    (other, n) ∈ countName name counts ↔ (other, n) ∈ counts := by
  induction counts with
  | nil => simp [countName, hne]
  | cons first rest ih =>
    obtain ⟨key, m⟩ := first
    rw [countName]
    split
    · next heq =>
      subst heq
      simp [hne]
    · split
      · simp [hne]
      · rw [List.mem_cons, List.mem_cons, ih]

/-- In a sorted list the counted name is found, or else it is put in its place. -/
theorem mem_countName_self {name : String} {counts : List (String × Nat)}
    (hsorted : counts.Pairwise fun a b => a.1 < b.1) (n : Nat) :
    (name, n) ∈ countName name counts ↔
      (∃ m, (name, m) ∈ counts ∧ n = m + 1) ∨ (∀ m, (name, m) ∉ counts) ∧ n = 1 := by
  induction counts with
  | nil => simp [countName]
  | cons first rest ih =>
    obtain ⟨key, k⟩ := first
    rw [List.pairwise_cons] at hsorted
    have hlarger : ∀ m, (name, m) ∈ rest → key < name := fun m hm => hsorted.1 _ hm
    rw [countName]
    split
    · next heq =>
      subst heq
      have hrest : ∀ m, (name, m) ∉ rest := fun m hm => String.lt_irrefl _ (hlarger m hm)
      simp [hrest]
    · next hne =>
      split
      · next hlt =>
        have hrest : ∀ m, (name, m) ∉ rest := fun m hm => String.lt_asymm hlt (hlarger m hm)
        simp [hne, hrest]
      · rw [List.mem_cons, ih hsorted.2]
        simp [hne]

theorem sorted_countName (name : String) {counts : List (String × Nat)}
    (hsorted : counts.Pairwise fun a b => a.1 < b.1) :
    (countName name counts).Pairwise fun a b => a.1 < b.1 := by
  induction counts with
  | nil => exact List.pairwise_singleton _ _
  | cons first rest ih =>
    obtain ⟨key, k⟩ := first
    have hall := List.pairwise_cons.1 hsorted
    rw [countName]
    split
    · exact List.pairwise_cons.2 hall
    · next hne =>
      split
      · next hlt =>
        refine List.pairwise_cons.2 ⟨List.forall_mem_cons.2 ⟨hlt, fun other hother => ?_⟩, hsorted⟩
        exact String.lt_trans hlt (hall.1 other hother)
      · next hge =>
        refine List.pairwise_cons.2 ⟨fun (other, n) hother => ?_, ih hall.2⟩
        by_cases heq : other = name
        · subst heq
          exact ((Std.lt_trichotomy key other).resolve_right fun h =>
            h.elim (fun h => hne h.symm) hge)
        · exact hall.1 _ ((mem_countName_of_ne heq rest n).1 hother)

/-- Counting one more name. -/
theorem countName {counts : List (String × Nat)} {names : List String}
    (h : Counts counts names) (name : String) :
    Counts (HornOntology.countName name counts) (names ++ [name]) where
  sorted := sorted_countName name h.sorted
  mem_iff other n := by
    rw [List.count_append]
    by_cases hother : other = name
    · subst hother
      simp only [mem_countName_self h.sorted, h.mem_iff, List.count_singleton_self]
      rcases Nat.eq_zero_or_pos (names.count other) with hzero | hpos
      · constructor
        · rintro (⟨m, ⟨hm, hcount⟩, -⟩ | ⟨-, rfl⟩)
          · omega
          · omega
        · rintro ⟨-, rfl⟩
          exact Or.inr ⟨by omega, by omega⟩
      · constructor
        · rintro (⟨m, ⟨-, rfl⟩, rfl⟩ | ⟨habsent, -⟩)
          · exact ⟨Nat.succ_pos _, rfl⟩
          · exact absurd ⟨hpos, rfl⟩ (habsent _)
        · rintro ⟨-, rfl⟩
          exact Or.inl ⟨_, ⟨hpos, rfl⟩, rfl⟩
    · have hnone : [name].count other = 0 := List.count_eq_zero.2 (by simpa using hother)
      rw [mem_countName_of_ne hother, h.mem_iff, hnone, Nat.add_zero]

end Counts

/-- The statistics of a run count how often each rule stands in its account. -/
def Progress.Tallied (p : Progress) : Prop :=
  Counts p.stats (p.derived.toList.map Derivation.rule)

namespace Progress.Tallied

theorem start (store : FactStore) : (Progress.start store).Tallied :=
  ⟨.nil, fun name n => by simpa [Progress.start] using Nat.pos_iff_ne_zero.1⟩

theorem record {p : Progress} (h : p.Tallied) (rule : String) (pass : Nat) (fact : Fact) :
    (p.record rule pass fact).Tallied := by
  by_cases hold : fact ∈ p.store.toList
  · rw [record_of_mem hold]
    exact h
  · rw [record_of_not_mem hold, Tallied, Array.toList_push, List.map_append]
    exact h.countName rule

theorem apply {p : Progress} (h : p.Tallied) (registry : Registry) (pass : Nat)
    (snapshot : Option FactStore) (rule : Rule EntityId) :
    (p.apply registry pass snapshot rule).Tallied :=
  List.foldlRecOn _ _ (motive := Tallied) h fun _ hq fact _ => hq.record rule.name pass fact

theorem makePass {p : Progress} (h : p.Tallied) (registry : Registry) (pass : Nat)
    (parallel : Bool) (rules : List (Rule EntityId)) :
    (p.makePass registry pass parallel rules).Tallied :=
  List.foldlRecOn rules _ (motive := Tallied) (b := p.beginPass) h
    fun _ hq rule _ => hq.apply registry pass _ rule

end Progress.Tallied

/-! ## Passes in order -/

/-- What the account tells when a run from `store` has made a number of passes that each recorded
    something. -/
structure AccountedFor (registry : Registry) (rules : List (Rule EntityId)) (store : FactStore)
    (pass : Nat) (p : Progress) : Prop where
  advances : Progress.Advances registry rules (Set.Icc 1 pass) (.start store) p
  ordered : (p.derived.toList.map Derivation.pass).Pairwise (· ≤ ·)
  /-- No pass is left out. -/
  recorded : ∀ i ∈ Set.Icc 1 pass, ∃ d ∈ p.derived.toList, d.pass = i
  tallied : p.Tallied

namespace AccountedFor

variable {registry : Registry} {rules : List (Rule EntityId)} {store : FactStore} {pass : Nat}
  {p q : Progress}

theorem start (registry : Registry) (rules : List (Rule EntityId)) (store : FactStore) :
    AccountedFor registry rules store 0 (.start store) where
  advances := .refl registry rules _ _
  ordered := .nil
  recorded i hi := absurd (hi.1.trans hi.2) (by decide)
  tallied := .start store

theorem derived_pass (h : AccountedFor registry rules store pass p) :
    ∀ d ∈ p.derived.toList, d.pass ∈ Set.Icc 1 pass := by
  obtain ⟨new, hderived, -, hnew⟩ := h.advances
  intro d hd
  obtain ⟨k, hk⟩ := List.mem_iff_getElem?.1 (hderived ▸ hd)
  exact (hnew k d hk).1

theorem setOf_pass (h : AccountedFor registry rules store pass p) :
    {i | ∃ d ∈ p.derived.toList, d.pass = i} = Set.Icc 1 pass := by
  refine Set.Subset.antisymm ?_ h.recorded
  rintro i ⟨d, hd, rfl⟩
  exact h.derived_pass d hd

/-- A pass that records something is accounted for. -/
theorem step (h : AccountedFor registry rules store pass p)
    (hpass : Progress.Advances registry rules {pass + 1} p q)
    (hgrows : q.derived.size ≠ p.derived.size) (htallied : q.Tallied) :
    AccountedFor registry rules store (pass + 1) q := by
  have hlater : Set.Icc 1 pass ⊆ Set.Icc 1 (pass + 1) :=
    Set.Icc_subset_Icc_right (Nat.le_succ pass)
  have hthis : {pass + 1} ⊆ Set.Icc 1 (pass + 1) :=
    Set.singleton_subset_iff.2 ⟨Nat.le_add_left 1 pass, Nat.le_refl _⟩
  have hadvances := (h.advances.mono hlater).trans (hpass.mono hthis)
  obtain ⟨new, hderived, -, hnew⟩ := hpass
  have hnewPass : ∀ d ∈ new, d.pass = pass + 1 := by
    intro d hd
    obtain ⟨k, hk⟩ := List.mem_iff_getElem?.1 hd
    exact (hnew k d hk).1
  refine ⟨hadvances, ?_, fun i hi => ?_, htallied⟩
  · rw [hderived, List.map_append, List.pairwise_append]
    refine ⟨h.ordered, ?_, ?_⟩
    · refine List.pairwise_map.2 (List.pairwise_of_forall_mem_list fun a ha b hb => ?_)
      rw [hnewPass a ha, hnewPass b hb]
    · simp only [List.forall_mem_map]
      intro a ha b hb
      rw [hnewPass b hb]
      exact (h.derived_pass a ha).2.trans (Nat.le_succ pass)
  · rw [hderived]
    rcases Nat.lt_or_ge pass i with hlast | hearlier
    · obtain ⟨d, hd⟩ : ∃ d, d ∈ new := by
        refine List.exists_mem_of_ne_nil new fun hnil => hgrows ?_
        rw [← Array.length_toList, hderived, hnil, List.append_nil, Array.length_toList]
      have hi2 := hi.2
      exact ⟨d, List.mem_append_right _ hd, by rw [hnewPass d hd]; omega⟩
    · obtain ⟨d, hd, hdi⟩ := h.recorded i ⟨hi.1, hearlier⟩
      exact ⟨d, List.mem_append_left _ hd, hdi⟩

/-- A run is left with an account: the last pass recorded nothing if the run reached a
    fixpoint. -/
theorem saturateFrom (hsafe : ∀ rule ∈ rules, rule.Safe) {strategy : Strategy}
    {changed : Option (Std.HashSet EntityId)} (fuel : Nat)
    (h : AccountedFor registry rules store pass p) :
    ∃ q passes isFixpoint,
      saturateFrom strategy registry rules fuel pass changed p =
          (q.account passes isFixpoint, q.store) ∧
        AccountedFor registry rules store (if isFixpoint then passes - 1 else passes) q := by
  induction fuel generalizing pass changed p with
  | zero => exact ⟨p, pass, false, rfl, h⟩
  | succ fuel ih =>
    by_cases hstable : (runPass strategy registry rules pass changed p).added = 0
    · exact ⟨p, pass + 1, true, saturateFrom_of_stable hstable fuel, h⟩
    · rw [saturateFrom_of_grows hstable]
      obtain ⟨new, hnew⟩ : ∃ new, Progress.Adds new p
          (runPass strategy registry rules pass changed p) := exists_adds_runPass
      have hsize := hnew.size_eq
      refine ih (h.step ?_ (by omega) (h.tallied.makePass registry _ _ _))
      exact Progress.advances_applyAll hsafe (fun rule hrule => List.mem_of_mem_filter hrule)
        strategy.parallel (pass + 1) p.beginPass

end AccountedFor

/-! ## The whole account -/

/-- **The account of a run is exact and well-founded.** The final store holds the initial facts and
    then the derived ones, in the order of the account. Each derived fact is an instance of a head
    atom of a rule with the recorded name, at a valuation at which the rule fires on the facts
    stored before it. The passes are recorded in order, and exactly those that added something are:
    all of them, without the last if the run reached a fixpoint. The number of derivations is the
    growth of the store, and the statistics have the rules that added something, each with the
    number of its facts. -/
theorem saturate_account (strategy : Strategy) (registry : Registry) {rules : List (Rule EntityId)}
    (hbuilt : ∀ rule ∈ rules, rule.IsBuilt) (store : FactStore) :
    let account := (saturate strategy registry rules store).1
    let final := (saturate strategy registry rules store).2
    final.toList = store.toList ++ account.derived.toList.map Derivation.fact ∧
      (∀ (k : Nat) (d : Derivation), account.derived[k]? = some d →
        ∃ rule ∈ rules, rule.name = d.rule ∧
          ∃ σ, rule.Fires registry {f | f ∈ final.toList.take (store.size + k)} σ ∧
            ∃ atom ∈ rule.head, atom.factAt σ = some d.fact) ∧
      (account.derived.toList.map Derivation.pass).Pairwise (· ≤ ·) ∧
      {i | ∃ d ∈ account.derived.toList, d.pass = i} =
        Set.Icc 1 (if account.reachedFixpoint then account.passes - 1 else account.passes) ∧
      account.applied = account.derived.toList.length ∧
      final.size = store.size + account.applied ∧
      (account.stats.map Prod.fst).Nodup ∧
      ∀ name n, (name, n) ∈ account.stats ↔
        0 < n ∧ n = (account.derived.toList.map Derivation.rule).count name := by
  have hsafe : ∀ rule ∈ rules, rule.Safe := fun rule hrule => (hbuilt rule hrule).safe
  have hended := ended_saturate strategy registry hsafe store
  obtain ⟨q, passes, isFixpoint, hrun, haccounted⟩ :=
    (AccountedFor.start registry rules store).saturateFrom hsafe
      (strategy.maxPasses.getD (passBound rules store))
  rw [show saturate strategy registry rules store = _ from hrun] at hended ⊢
  intro account final
  have hstore : final.toList = store.toList ++ account.derived.toList.map Derivation.fact :=
    hended.toList_eq
  obtain ⟨new, hderived, -, hnew⟩ := haccounted.advances
  obtain rfl : account.derived.toList = new := hderived
  have hcounts : Counts account.stats (account.derived.toList.map Derivation.rule) :=
    haccounted.tallied
  have happlied : account.applied = account.derived.toList.length :=
    hended.applied_eq.trans Array.length_toList.symm
  have hsize (s : FactStore) : s.toList.length = s.size := Array.length_toList
  refine ⟨hstore, fun k d hd => ?_, haccounted.ordered, haccounted.setOf_pass,
    happlied, ?_, ?_, hcounts.mem_iff⟩
  · obtain ⟨-, rule, hrule, hname, hconsequence⟩ := hnew k d (by rwa [Array.getElem?_toList])
    have htake : final.toList.take (store.size + k) =
        store.toList ++ (account.derived.toList.take k).map Derivation.fact := by
      rw [hstore, ← hsize, List.take_length_add_append, List.map_take]
    rw [htake]
    exact ⟨rule, hrule, hname, hconsequence⟩
  · rw [← hsize, ← hsize, hstore, List.length_append, List.length_map,
      happlied]
  · refine List.pairwise_map.2 (hcounts.sorted.imp fun hlt heq => ?_)
    exact String.lt_irrefl _ (heq ▸ hlt)

/-- Over a chain, the first derivation rests on the two links alone. -/
theorem saturate_account_chain :
    let run := saturate ⟨true, false, none⟩ .empty closureRules chainStore
    run.2.toList.take 2 = chainFacts ∧
      (∀ d, run.1.derived[0]? = some d →
        ∃ rule ∈ closureRules, rule.name = d.rule ∧
          ∃ σ, rule.Fires .empty {f | f ∈ chainFacts} σ ∧
            ∃ atom ∈ rule.head, atom.factAt σ = some d.fact) ∧
      {i | ∃ d ∈ run.1.derived.toList, d.pass = i} =
        Set.Icc 1 (if run.1.reachedFixpoint then run.1.passes - 1 else run.1.passes) := by
  intro run
  have hsize : chainStore.size = chainFacts.length := by
    rw [← toList_chainStore]
    exact Array.length_toList.symm
  obtain ⟨hstore, hfollows, -, hpasses, -⟩ :=
    saturate_account ⟨true, false, none⟩ .empty isBuilt_closureRules chainStore
  have htake : run.2.toList.take 2 = chainFacts := by
    rw [hstore, toList_chainStore]
    rfl
  refine ⟨htake, fun d hd => ?_, hpasses⟩
  have hfirst := hfollows 0 d hd
  rwa [hsize, show chainFacts.length + 0 = 2 from rfl, htake] at hfirst

end HornOntology
