import HornOntology.Proofs.Model

set_option autoImplicit false

/-! # What a store makes of the facts it is told

A store comes to be by calls that add one fact or several. Whatever the calls were, the stored list
is the sequence of all facts that they named, with later repetitions dropped, and the answers of
the store are those of this list: a pattern selects what filtering the whole list selects, in the
same order, whichever index is asked (`ofCalls_refines_list`). What a call reports is how the list
grew. -/

namespace HornOntology.FactStore

/-! ## What a call reports -/

theorem learn_fst_eq_true_iff (s : FactStore) (fact : Fact) :
    (s.learn fact).1 = true ↔ fact ∉ s.toList := by
  rw [learn, Bool.not_eq_true', ← Bool.not_eq_true, contains_iff]

theorem size_learn (s : FactStore) (fact : Fact) :
    (s.learn fact).2.size = if (s.learn fact).1 then s.size + 1 else s.size := by
  have hsize (s : FactStore) : s.size = s.toList.length := Array.length_toList.symm
  have hstore : (s.learn fact).2.toList = _ := s.toList_assert fact
  rw [hsize, hsize, hstore]
  by_cases hold : fact ∈ s.toList
  · rw [if_pos hold, if_neg fun hnew => (s.learn_fst_eq_true_iff fact).1 hnew hold]
  · rw [if_neg hold, if_pos ((s.learn_fst_eq_true_iff fact).2 hold), List.length_append,
      List.length_singleton]

theorem learnAll_snd (s : FactStore) (facts : List Fact) :
    (s.learnAll facts).2 = s.extend facts := by
  induction facts generalizing s with
  | nil => rfl
  | cons fact facts ih => exact ih (s.assert fact)

/-- The number of new facts is the number by which the store grows. -/
theorem size_learnAll (s : FactStore) (facts : List Fact) :
    (s.learnAll facts).2.size = s.size + (s.learnAll facts).1 := by
  induction facts generalizing s with
  | nil => rfl
  | cons fact facts ih =>
    have hrest := ih (s.learn fact).2
    rw [size_learn] at hrest
    rw [learnAll]
    dsimp only
    rw [hrest]
    cases (s.learn fact).1 with
    | true => simp only [if_true]; omega
    | false => simp only [Bool.false_eq_true, if_false]

/-! ## Stores built by calls -/

/-- A call that adds facts. -/
inductive Call where
  | assert (fact : Fact)
  | extend (facts : List Fact)

/-- The facts that a call names, in order. -/
def Call.facts : Call → List Fact
  | assert fact => [fact]
  | extend facts => facts

/-- The store after a call. -/
def Call.perform (s : FactStore) : Call → FactStore
  | assert fact => (s.learn fact).2
  | extend facts => (s.learnAll facts).2

/-- The store that calls build, one after the other. -/
def ofCalls (calls : List Call) : FactStore := calls.foldl Call.perform .empty

theorem Call.perform_eq_extend (s : FactStore) (call : Call) :
    call.perform s = s.extend call.facts := by
  cases call with
  | assert fact => rfl
  | extend facts => exact s.learnAll_snd facts

theorem foldl_perform (calls : List Call) (s : FactStore) :
    calls.foldl Call.perform s = s.extend (calls.flatMap Call.facts) := by
  induction calls generalizing s with
  | nil => rfl
  | cons call calls ih =>
    rw [List.foldl_cons, ih, Call.perform_eq_extend, List.flatMap_cons, extend, extend, extend,
      List.foldl_append]

/-- **A store is the list of what it was told.** The stored facts are all that the calls named, in
    order, with later repetitions dropped. A pattern selects from them what filtering the list
    selects, each fact once; a fact is contained if it is in the list; a call that adds one fact
    reports whether it was absent, and one that adds several by how many the store grew. -/
theorem ofCalls_refines_list (calls : List Call) :
    let s := ofCalls calls
    s.toList = (calls.flatMap Call.facts).eraseDups ∧
      s.toList.Nodup ∧
      (∀ pattern, s.select pattern = s.toList.filter pattern.accepts ∧
        (s.select pattern).Nodup) ∧
      (∀ fact, s.contains fact = true ↔ fact ∈ s.toList) ∧
      (∀ fact, (s.learn fact).1 = true ↔ fact ∉ s.toList) ∧
      ∀ facts, (s.learnAll facts).2.size = s.size + (s.learnAll facts).1 := by
  intro s
  have hlist : s.toList = (calls.flatMap Call.facts).eraseDups := by
    change (calls.foldl Call.perform .empty).toList = _
    rw [foldl_perform, toList_extend, toList_empty, List.nil_append]
  have hnodup : s.toList.Nodup := hlist ▸ nodup_eraseDups _
  refine ⟨hlist, hnodup, fun pattern => ⟨s.select_eq_filter pattern, ?_⟩, s.contains_iff,
    s.learn_fst_eq_true_iff, s.size_learnAll⟩
  rw [s.select_eq_filter pattern]
  exact hnodup.filter _

end HornOntology.FactStore
