import HornOntology.Answer
import HornOntology.Proofs.Model
import HornOntology.Saturation
import Mathlib.Data.List.Flatten

set_option autoImplicit false

/-! # Growing stores

A store never forgets a fact and never moves one: after further assertions its list of facts is the
old one with a new end (`GrowsTo.isPrefix`). Saturation changes a store by assertions only, so it
makes it grow (`growsTo_saturate`).

Matching keeps pace. Each atom is matched with the stored facts that agree with the binding, in
their order, whichever index is asked; so the matches in the old store are a sublist of those in the
new one, and by induction over the body so are the solutions (`solve_sublist`). New solutions come
anywhere between the old ones, but these keep their order and their number. -/

namespace HornOntology

/-! ## Growth by assertions -/

/-- The second store is the first after further assertions. -/
inductive FactStore.GrowsTo (s : FactStore) : FactStore → Prop
  | refl : GrowsTo s s
  | assert {s' : FactStore} (h : GrowsTo s s') (fact : Fact) : GrowsTo s (s'.assert fact)

theorem FactStore.GrowsTo.isPrefix {s s' : FactStore} (h : s.GrowsTo s') :
    s.toList <+: s'.toList := by
  induction h with
  | refl => exact List.prefix_refl _
  | assert _ fact ih =>
    rw [toList_assert]
    split
    · exact ih
    · exact ih.trans (List.prefix_append _ _)

/-! ## Growth by saturation -/

section Saturation

variable {store : FactStore} {p : Progress} (registry : Registry)

theorem growsTo_record (rule : String) (pass : Nat) (h : store.GrowsTo p.store) (fact : Fact) :
    store.GrowsTo (p.record rule pass fact).store := by
  unfold Progress.record
  split
  · exact h
  · exact h.assert fact

theorem growsTo_apply (pass : Nat) (snapshot : Option FactStore) (h : store.GrowsTo p.store)
    (rule : Rule EntityId) : store.GrowsTo (p.apply registry pass snapshot rule).store := by
  refine List.foldlRecOn _ _ (motive := fun q : Progress => store.GrowsTo q.store) h ?_
  intro q hq fact _
  exact growsTo_record rule.name pass hq fact

theorem growsTo_applyAll (pass : Nat) (parallel : Bool) (h : store.GrowsTo p.store)
    (rules : List (Rule EntityId)) :
    store.GrowsTo (p.applyAll registry pass parallel rules).store := by
  refine List.foldlRecOn rules _ (motive := fun q : Progress => store.GrowsTo q.store) h ?_
  intro q hq rule _
  exact growsTo_apply registry pass _ hq rule

theorem growsTo_makePass (pass : Nat) (parallel : Bool) (h : store.GrowsTo p.store)
    (rules : List (Rule EntityId)) :
    store.GrowsTo (p.makePass registry pass parallel rules).store :=
  growsTo_applyAll registry pass parallel (p := p.beginPass) h rules

/-- Every pass makes the store grow, and so does a run, however it ends. -/
theorem growsTo_saturateFrom (strategy : Strategy) (rules : List (Rule EntityId))
    (fuel pass : Nat) (changed : Option (Std.HashSet EntityId)) (h : store.GrowsTo p.store) :
    store.GrowsTo (saturateFrom strategy registry rules fuel pass changed p).2 := by
  induction fuel generalizing pass changed p with
  | zero => exact h
  | succ fuel ih =>
    have hpass := growsTo_makePass registry (pass + 1) strategy.parallel h
      (rules.filter (isActive changed))
    unfold saturateFrom
    dsimp only
    split
    · exact hpass
    · exact ih _ _ hpass

theorem growsTo_saturate (strategy : Strategy) (rules : List (Rule EntityId))
    (store : FactStore) : store.GrowsTo (saturate strategy registry rules store).2 :=
  growsTo_saturateFrom registry strategy rules _ 0 none .refl

end Saturation

/-! ## Answers of growing stores -/

namespace Matcher

variable (registry : Registry) {store store' : FactStore}

theorem matchAtom_sublist (h : store.toList.Sublist store'.toList) (atom : Atom EntityId)
    (b : Binding) :
    (matchAtom ⟨store, registry⟩ atom b).Sublist (matchAtom ⟨store', registry⟩ atom b) := by
  cases atom with
  | builtin op args => exact List.Sublist.refl _
  | member cls arg =>
    simp only [matchAtom, FactStore.select_eq_filter]
    exact (h.filter _).filterMap _
  | link property subject object =>
    simp only [matchAtom, FactStore.select_eq_filter]
    exact (h.filter _).filterMap _

/-- With more facts there are more solutions, and the old ones stay in their order. -/
theorem solve_sublist (h : store.toList.Sublist store'.toList) (body : List (Atom EntityId))
    (b : Binding) :
    (solve ⟨store, registry⟩ body b).Sublist (solve ⟨store', registry⟩ body b) := by
  induction body generalizing b with
  | nil => exact List.Sublist.refl _
  | cons atom rest ih =>
    -- each old match of the atom has more continuations, and there are more matches
    have hcontinued : ((matchAtom ⟨store, registry⟩ atom b).flatMap
          (solve ⟨store, registry⟩ rest)).Sublist
        ((matchAtom ⟨store, registry⟩ atom b).flatMap (solve ⟨store', registry⟩ rest)) :=
      .flatMap_right _ fun b₁ _ => ih b₁
    exact hcontinued.trans ((matchAtom_sublist registry h atom b).flatMap _)

theorem rows_sublist (h : store.toList.Sublist store'.toList) (query : Query EntityId) :
    (rows ⟨store, registry⟩ query).Sublist (rows ⟨store', registry⟩ query) :=
  (solve_sublist registry h query.plan .empty).filterMap _

/-- **Answers only grow.** When facts are added to a store, as saturation adds them, the rows of a
    query stay, in their order and with their multiplicities, and others come between them. If
    equal rows are shown once, every row that was shown still is. -/
theorem answer_of_growsTo (query : Query EntityId) (registry : Registry) (store : FactStore) :
    (∀ strategy rules, store.GrowsTo (saturate strategy registry rules store).2) ∧
    ∀ store', store.GrowsTo store' →
      (answer ⟨store, registry⟩ { query with distinct := false }).rows.Sublist
        (answer ⟨store', registry⟩ { query with distinct := false }).rows ∧
      ∀ row ∈ (answer ⟨store, registry⟩ { query with distinct := true }).rows,
        row ∈ (answer ⟨store', registry⟩ { query with distinct := true }).rows := by
  refine ⟨fun strategy rules => growsTo_saturate registry strategy rules store, ?_⟩
  intro store' hgrows
  have hfacts := hgrows.isPrefix.sublist
  refine ⟨rows_sublist registry hfacts _, ?_⟩
  intro row hrow
  simp only [answer, if_true, List.mem_eraseDups] at hrow ⊢
  exact (rows_sublist registry hfacts _).subset hrow

end Matcher

/-- The links of a chain before and after one pass of the rules of a transitive closure. -/
theorem Matcher.answer_of_growsTo_chain :
    let p : EntityId := ⟨1, by decide⟩
    let query : Query EntityId :=
      ⟨"steps", [.link p (.var ⟨"x"⟩) (.var ⟨"y"⟩)], [⟨"x"⟩, ⟨"y"⟩], false⟩
    let after := (saturate ⟨true, false, some 1⟩ .empty closureRules chainStore).2
    (answer ⟨chainStore, .empty⟩ query).rows.Sublist (answer ⟨after, .empty⟩ query).rows := by
  intro p query after
  obtain ⟨hsaturate, hgrows⟩ := answer_of_growsTo query .empty chainStore
  exact (hgrows after (hsaturate ⟨true, false, some 1⟩ closureRules)).1

end HornOntology
