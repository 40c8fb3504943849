import HornOntology.Answer
import HornOntology.Proofs.Filtering
import Mathlib.Algebra.BigOperators.Group.List.Basic

set_option autoImplicit false

/-! # Answers and conclusions

A query and a rule with the same body are matched in the same way, and each drops without a word
what it cannot fill in: a row with a variable that has no entity, an atom of the head that states no
fact. The checks make sure that there is nothing to drop. They look at the body as written, while
bindings come from its plan; but matching the plan gives exactly the solutions of the body
(`mem_solve_plan_iff`), and these bind every variable that the checks ask for. So a table has one
row for each solution (`map_some_rows`) and a head states one fact for each of its atoms
(`map_some_conclusions`), and the conclusions of a rule can be read off the rows of the query that
selects the variables of its head.

The solutions of a body do not depend on the order of its atoms (`solve_plan_perm`), and so neither
the verdict of the checks nor the rows of an answer do, but for the order of the rows. -/

namespace HornOntology

/-! ## Parts that pass the check -/

section Check

variable {κ : Type}

/-- Which parts make a query is a matter of the atoms, not of their order. -/
theorem Query.exists_ofParts_iff {name : String} {body : List (Atom κ)}
    {projection : List Variable} {distinct : Bool} :
    (∃ query, ofParts name body projection distinct = .ok query) ↔
      (body ≠ [] ∧ ∀ atom ∈ body, atom.wrongArity? = none) ∧
        ∀ v ∈ projection, v ∈ boundVariables body := by
  simp only [ofParts_eq_ok_iff, exists_and_left, exists_eq, and_true, checkBody_eq_ok_iff,
    List.find?_eq_none, Bool.not_eq_true', Bool.not_eq_false, List.contains_iff_mem]

theorem Rule.mem_headVariables_iff {rule : Rule κ} {v : Variable} :
    v ∈ rule.headVariables ↔ ∃ atom ∈ rule.head, v ∈ atom.vars := by
  rw [headVariables, List.mem_eraseDups, List.mem_flatMap]

theorem Rule.Safe.mem_boundVariables {rule : Rule κ} (hsafe : rule.Safe) {v : Variable}
    (hv : v ∈ rule.headVariables) : v ∈ boundVariables rule.body := by
  obtain ⟨atom, hatom, hvar⟩ := mem_headVariables_iff.1 hv
  exact (hsafe atom hatom).2 v hvar

end Check

/-! ## The solutions of a plan -/

namespace Matcher

variable (m : Matcher)

theorem satisfies_iff_passes {atom : Atom EntityId} (hcompare : atom.isRelational = false)
    (b : Binding) : m.Satisfies b atom ↔ m.passes b atom = true := by
  cases atom with
  | member cls arg => simp [Atom.isRelational] at hcompare
  | link property subject object => simp [Atom.isRelational] at hcompare
  | builtin op args => simp [Satisfies, passes]

theorem boundVariables_filter_isRelational (body : List (Atom EntityId)) :
    boundVariables (body.filter Atom.isRelational) = boundVariables body := by
  simp [boundVariables]

/-- Matching a plan gives exactly the solutions of the body. -/
theorem mem_solve_plan_iff {body : List (Atom EntityId)} {seed b : Binding} :
    b ∈ m.solve (plan body) seed ↔ m.Solves body seed b := by
  have hrelational : ComparesBound seed (body.filter Atom.isRelational) := by
    intro before atom after hsplit hcompare
    have hatom : atom ∈ body.filter Atom.isRelational := by simp [hsplit]
    simp [(List.mem_filter.1 hatom).2] at hcompare
  rw [solve_plan, List.mem_filter, m.mem_solve_iff hrelational, List.all_eq_true]
  constructor
  · intro ⟨h, hpasses⟩
    refine ⟨h.extends_seed, fun v => ?_, fun atom hatom => ?_⟩
    · rw [h.isBound_iff v, boundVariables_filter_isRelational]
    · by_cases hrel : atom.isRelational = true
      · exact h.satisfies atom (List.mem_filter.2 ⟨hatom, hrel⟩)
      · exact (m.satisfies_iff_passes (by simpa using hrel) b).2 (hpasses atom hatom)
  · intro h
    refine ⟨⟨h.extends_seed, fun v => ?_, fun atom hatom => ?_⟩, fun atom hatom => ?_⟩
    · rw [h.isBound_iff v, boundVariables_filter_isRelational]
    · exact h.satisfies atom (List.mem_of_mem_filter hatom)
    · by_cases hrel : atom.isRelational = true
      · exact m.passes_of_isRelational hrel b
      · exact (m.satisfies_iff_passes (by simpa using hrel) b).1 (h.satisfies atom hatom)

theorem isBound_of_mem_solve_plan {body : List (Atom EntityId)} {seed b : Binding}
    (hb : b ∈ m.solve (plan body) seed) {v : Variable} (hv : v ∈ boundVariables body) :
    b.isBound v = true :=
  ((m.mem_solve_plan_iff.1 hb).isBound_iff v).2 (Or.inr hv)

theorem nodup_solve (body : List (Atom EntityId)) (seed : Binding) :
    (m.solve body seed).Nodup := by
  refine (m.pairwise_positions_solve body seed).imp ?_
  intro b b' hlt heq
  rw [heq] at hlt
  exact List.lt_irrefl _ hlt

theorem Solves.perm {body body' : List (Atom EntityId)} (hperm : body.Perm body')
    {seed b : Binding} (h : m.Solves body seed b) : m.Solves body' seed b where
  extends_seed := h.extends_seed
  isBound_iff v := by rw [h.isBound_iff v, mem_boundVariables_congr hperm]
  satisfies atom hatom := h.satisfies atom (hperm.mem_iff.2 hatom)

/-- The order of the atoms shows in nothing but the order of the solutions. -/
theorem solve_plan_perm {body body' : List (Atom EntityId)} (hperm : body.Perm body')
    (seed : Binding) : (m.solve (plan body) seed).Perm (m.solve (plan body') seed) := by
  -- no solution is found twice, so it is enough that the same ones are found
  rw [List.perm_ext_iff_of_nodup (m.nodup_solve _ seed) (m.nodup_solve _ seed)]
  intro b
  rw [mem_solve_plan_iff, mem_solve_plan_iff]
  exact ⟨Solves.perm m hperm, Solves.perm m hperm.symm⟩

end Matcher

/-! ## Nothing is dropped -/

theorem mapM_eq_some_iff {α β : Type} {f : α → Option β} {l : List α} {l' : List β} :
    l.mapM f = some l' ↔ l.map f = l'.map some := by
  induction l generalizing l' with
  | nil => cases l' <;> simp
  | cons a l ih =>
    cases l' with
    | nil => simp [Option.bind_eq_some_iff]
    | cons b l' => simp [Option.bind_eq_some_iff, ih, and_comm]

theorem map_some_filterMap {α β : Type} {f : α → Option β} {l : List α}
    (h : ∀ a ∈ l, (f a).isSome = true) : (l.filterMap f).map some = l.map f := by
  rw [List.map_filterMap_some_eq_filter_map_isSome, List.filter_eq_self]
  exact List.forall_mem_map.2 h

/-- A row lists the entities of the selected variables. -/
theorem Query.row?_eq_some_iff {query : Query EntityId} {b : Binding} {row : List EntityId} :
    query.row? b = some row ↔ query.projection.map b.get? = row.map some :=
  mapM_eq_some_iff

theorem Query.isSome_row? (query : Query EntityId) {b : Binding}
    (hbound : ∀ v ∈ query.projection, b.isBound v = true) : (query.row? b).isSome = true := by
  obtain ⟨σ, hag⟩ := b.exists_agrees
  have hvalue : ∀ v ∈ query.projection, b.get? v = some (σ v) := by
    intro v hv
    obtain ⟨id, hid⟩ := Binding.isBound_iff.1 (hbound v hv)
    rw [hid, hag v id hid]
  have hrow : query.row? b = some (query.projection.map σ) :=
    row?_eq_some_iff.2 (by simpa using hvalue)
  simp [hrow]

theorem Atom.isSome_ground {atom : Atom EntityId} (hrel : atom.isRelational = true) {b : Binding}
    (hbound : ∀ v ∈ atom.vars, b.isBound v = true) : (atom.ground b).isSome = true := by
  obtain ⟨σ, hag⟩ := b.exists_agrees
  obtain ⟨f, hf⟩ := Atom.exists_factAt hrel σ
  rw [hag.ground_of_factAt hbound hf]
  rfl

namespace Matcher

variable (m : Matcher)

/-- There is one row for each solution. -/
theorem map_some_rows (query : Query EntityId)
    (hbound : ∀ v ∈ query.projection, v ∈ boundVariables query.body) :
    (m.rows query).map some = (m.solve query.plan .empty).map query.row? := by
  refine map_some_filterMap ?_
  intro b hb
  exact query.isSome_row? fun v hv => m.isBound_of_mem_solve_plan hb (hbound v hv)

theorem isSome_ground_of_mem_solve {rule : Rule EntityId} (hsafe : rule.Safe) {b : Binding}
    (hb : b ∈ m.solve rule.plan .empty) :
    ∀ atom ∈ rule.head, (atom.ground b).isSome = true := by
  intro atom hatom
  obtain ⟨hrel, hvars⟩ := hsafe atom hatom
  exact Atom.isSome_ground hrel fun v hv => m.isBound_of_mem_solve_plan hb (hvars v hv)

/-- There is one conclusion for each solution and each atom of the head. -/
theorem map_some_conclusions {rule : Rule EntityId} (hsafe : rule.Safe) :
    (m.conclusions rule).map some =
      (m.solve rule.plan .empty).flatMap fun b => rule.head.map (Atom.ground b) := by
  rw [conclusions, List.map_flatMap]
  refine List.flatMap_congr ?_
  intro b hb
  exact map_some_filterMap (m.isSome_ground_of_mem_solve hsafe hb)

theorem length_conclusions {rule : Rule EntityId} (hsafe : rule.Safe) :
    (m.conclusions rule).length = (m.solve rule.plan .empty).length * rule.head.length := by
  have hlength := congrArg List.length (m.map_some_conclusions hsafe)
  simpa [List.length_flatMap] using hlength

end Matcher

/-! ## Rules and queries -/

namespace Binding

/-- The binding that a row of a table stands for. -/
def ofRow (columns : List Variable) (row : List EntityId) : Binding := ofList (columns.zip row)

theorem isBound_ofList_iff (pairs : List (Variable × EntityId)) (v : Variable) :
    (ofList pairs).isBound v = true ↔ v ∈ pairs.map Prod.fst := by
  have hfold (seed : Binding) :
      (pairs.foldl (fun b pair => b.insert pair.1 pair.2) seed).isBound v = true ↔
        seed.isBound v = true ∨ v ∈ pairs.map Prod.fst := by
    induction pairs generalizing seed with
    | nil => simp
    | cons pair pairs ih =>
      rw [List.foldl_cons, ih, isBound_insert, List.map_cons, List.mem_cons, or_assoc,
        eq_comm (a := pair.1)]
  simp [ofList, hfold]

theorem extends_ofList {b : Binding} {pairs : List (Variable × EntityId)}
    (h : ∀ pair ∈ pairs, b.get? pair.1 = some pair.2) : b.Extends (ofList pairs) := by
  refine List.foldlRecOn pairs _ (motive := b.Extends) ?_ ?_
  · intro v id hv
    simp [empty, get?, find] at hv
  · intro seed hseed pair hpair v id hv
    rw [get?_insert] at hv
    split at hv
    · next heq =>
      rw [← heq, h pair hpair, hv]
    · exact hseed v id hv

theorem isBound_ofRow {b : Binding} {columns : List Variable} {row : List EntityId}
    (h : columns.map b.get? = row.map some) {v : Variable} (hv : v ∈ columns) :
    (ofRow columns row).isBound v = true := by
  have hlength : columns.length = row.length := by simpa using congrArg List.length h
  rw [ofRow, isBound_ofList_iff, List.map_fst_zip (Nat.le_of_eq hlength)]
  exact hv

/-- A solution extends the binding of the row that it gives. -/
theorem extends_ofRow {b : Binding} {columns : List Variable} {row : List EntityId}
    (h : columns.map b.get? = row.map some) : b.Extends (ofRow columns row) := by
  refine extends_ofList ?_
  induction columns generalizing row with
  | nil => simp
  | cons v columns ih =>
    cases row with
    | nil => simp at h
    | cons id row =>
      simp only [List.map_cons, List.cons.injEq] at h
      rw [List.zip_cons_cons, List.forall_mem_cons]
      exact ⟨h.1, ih h.2⟩

end Binding

/-- If a row has a column for each variable of an atom, the atom states the same under the row as
    under the solution that gives it. -/
theorem Atom.ground_ofRow {atom : Atom EntityId} (hrel : atom.isRelational = true) {b : Binding}
    {columns : List Variable} {row : List EntityId} (hrow : columns.map b.get? = row.map some)
    (hvars : ∀ v ∈ atom.vars, v ∈ columns) :
    atom.ground (.ofRow columns row) = atom.ground b := by
  have hsome := Atom.isSome_ground hrel fun v hv => Binding.isBound_ofRow hrow (hvars v hv)
  obtain ⟨f, hf⟩ := Option.isSome_iff_exists.1 hsome
  rw [hf, (Binding.extends_ofRow hrow).ground hf]

/-- The query that selects the variables of the head of a rule. -/
def Rule.selection {κ : Type} (rule : Rule κ) (name : String) : Query κ :=
  ⟨name, rule.body, rule.headVariables, false⟩

theorem Rule.IsBuilt.ofParts_selection {rule : Rule EntityId} (hbuilt : rule.IsBuilt)
    (name : String) :
    Query.ofParts name rule.body rule.headVariables false = .ok (rule.selection name) := by
  obtain ⟨name', body, head, hparts⟩ := id hbuilt
  obtain ⟨hcheck, -, hrule⟩ := Rule.ofParts_eq_ok_iff.1 hparts
  have hbody : rule.body ≠ [] ∧ ∀ atom ∈ rule.body, atom.wrongArity? = none := by
    rw [hrule]
    exact checkBody_eq_ok_iff.1 hcheck
  obtain ⟨query, hquery⟩ := Query.exists_ofParts_iff.2
    ⟨hbody, fun v hv => hbuilt.safe.mem_boundVariables hv⟩
  rw [hquery, (Query.ofParts_eq_ok_iff.1 hquery).2.2]
  rfl

namespace Matcher

variable (m : Matcher)

/-- A rule concludes what its head states under the rows of its selection. -/
theorem map_some_conclusions_eq_rows {rule : Rule EntityId} (hsafe : rule.Safe) (name : String) :
    (m.conclusions rule).map some = (m.rows (rule.selection name)).flatMap fun row =>
      rule.head.map (Atom.ground (.ofRow rule.headVariables row)) := by
  let solutions := m.solve rule.plan .empty
  let stated (row : List EntityId) : List (Option Fact) :=
    rule.head.map (Atom.ground (.ofRow rule.headVariables row))
  have hrows := m.map_some_rows (rule.selection name) fun v hv => hsafe.mem_boundVariables hv
  have hsame : ∀ b ∈ solutions,
      rule.head.map (Atom.ground b) = ((rule.selection name).row? b).elim [] stated := by
    intro b hb
    have hsome := (rule.selection name).isSome_row? fun v hv =>
      m.isBound_of_mem_solve_plan hb (hsafe.mem_boundVariables hv)
    obtain ⟨row, hrow⟩ := Option.isSome_iff_exists.1 hsome
    rw [hrow, Option.elim_some]
    refine List.map_congr_left ?_
    intro atom hatom
    refine (Atom.ground_ofRow (hsafe atom hatom).1 (Query.row?_eq_some_iff.1 hrow) ?_).symm
    intro v hv
    exact Rule.mem_headVariables_iff.2 ⟨atom, hatom, hv⟩
  calc (m.conclusions rule).map some
      = solutions.flatMap fun b => rule.head.map (Atom.ground b) := m.map_some_conclusions hsafe
    _ = solutions.flatMap fun b => ((rule.selection name).row? b).elim [] stated :=
        List.flatMap_congr hsame
    _ = ((m.rows (rule.selection name)).map some).flatMap (·.elim [] stated) := by
        rw [hrows, List.flatMap_map]
        rfl
    _ = (m.rows (rule.selection name)).flatMap stated := by
        rw [List.flatMap_map]
        rfl

theorem length_of_mem_rows {query : Query EntityId} {row : List EntityId}
    (hrow : row ∈ m.rows query) : row.length = query.projection.length := by
  obtain ⟨b, -, hb⟩ := List.mem_filterMap.1 hrow
  have hlength := congrArg List.length (Query.row?_eq_some_iff.1 hb)
  simpa using hlength.symm

/-- **Rules and queries agree.** The body of a rule, with the variables of its head selected, makes
    a query, and the conclusions of the rule are the atoms of its head as stated by each row in
    turn. Neither side drops anything: there is one row for each solution, as wide as the table,
    and one conclusion for each solution and atom of the head. -/
theorem conclusions_eq_rows (rule : Rule EntityId) (hbuilt : rule.IsBuilt) (name : String) :
    let query := rule.selection name
    let solutions := m.solve query.plan .empty
    let rows := (m.answer query).rows
    Query.ofParts name rule.body rule.headVariables false = .ok query ∧
      ((m.conclusions rule).map some =
        rows.flatMap fun row => rule.head.map (Atom.ground (.ofRow rule.headVariables row))) ∧
      (rows.map some = solutions.map query.row? ∧
        ∀ row ∈ rows, row.length = rule.headVariables.length) ∧
      (m.conclusions rule).length = solutions.length * rule.head.length ∧
      ∀ b ∈ solutions, (∀ atom ∈ rule.head, (atom.ground b).isSome = true) ∧
        ∀ v ∈ rule.headVariables, b.isBound v = true := by
  intro query solutions rows
  have hsafe := hbuilt.safe
  refine ⟨hbuilt.ofParts_selection name, m.map_some_conclusions_eq_rows hsafe name, ⟨?_, ?_⟩,
    m.length_conclusions hsafe, ?_⟩
  · exact m.map_some_rows query fun v hv => hsafe.mem_boundVariables hv
  · intro row hrow
    exact m.length_of_mem_rows hrow
  · intro b hb
    refine ⟨m.isSome_ground_of_mem_solve hsafe hb, ?_⟩
    intro v hv
    exact m.isBound_of_mem_solve_plan hb (hsafe.mem_boundVariables hv)

end Matcher

/-- The step of a transitive closure: from the links of a chain, the query that selects the two
    ends. -/
theorem Matcher.conclusions_eq_rows_chain :
    let further : Rule EntityId := closureRules.getLast (by decide)
    let m : Matcher := ⟨chainStore, .empty⟩
    further.headVariables = [⟨"x"⟩, ⟨"z"⟩] ∧
      (m.conclusions further).map some = (m.answer (further.selection "ends")).rows.flatMap
        fun row => further.head.map (Atom.ground (.ofRow further.headVariables row)) := by
  intro further m
  have hbuilt : further.IsBuilt := isBuilt_closureRules further (by decide)
  exact ⟨by decide, (m.conclusions_eq_rows further hbuilt "ends").2.1⟩

/-! ## The order of the atoms -/

/-- **The order of a body shows in the order of the rows alone.** A body and the same atoms in
    another order make queries under the same condition; then the rows are the same with the same
    multiplicities, and if equal rows are shown once, the same rows are shown. -/
theorem Matcher.answer_perm (m : Matcher) {body body' : List (Atom EntityId)}
    (hperm : body.Perm body') (name : String) (projection : List Variable) :
    ((∃ query, Query.ofParts name body projection false = .ok query) ↔
      ∃ query', Query.ofParts name body' projection false = .ok query') ∧
    ∀ query query', Query.ofParts name body projection false = .ok query →
      Query.ofParts name body' projection false = .ok query' →
      (m.answer query).rows.Perm (m.answer query').rows ∧
      let shown := (m.answer { query with distinct := true }).rows
      let shown' := (m.answer { query' with distinct := true }).rows
      shown.Nodup ∧ shown'.Nodup ∧ ∀ row, row ∈ shown ↔ row ∈ shown' := by
  have hempty : body = [] ↔ body' = [] := by
    rw [← List.length_eq_zero_iff, hperm.length_eq, List.length_eq_zero_iff]
  refine ⟨?_, ?_⟩
  · simp only [Query.exists_ofParts_iff, ne_eq, hempty, hperm.mem_iff,
      mem_boundVariables_congr hperm]
  · intro query query' hquery hquery'
    obtain ⟨-, -, rfl⟩ := Query.ofParts_eq_ok_iff.1 hquery
    obtain ⟨-, -, rfl⟩ := Query.ofParts_eq_ok_iff.1 hquery'
    have hrows : (m.rows ⟨name, body, projection, false⟩).Perm
        (m.rows ⟨name, body', projection, false⟩) :=
      (m.solve_plan_perm hperm .empty).filterMap _
    refine ⟨hrows, nodup_eraseDups _, nodup_eraseDups _, ?_⟩
    intro row
    simp only [answer, if_true, List.mem_eraseDups]
    exact hrows.mem_iff

/-- Two links of a chain with different ends, and the same from right to left, so that the comparison
    comes before the links. -/
theorem Matcher.answer_perm_chain :
    let p : EntityId := ⟨1, by decide⟩
    let m : Matcher := ⟨chainStore, .empty⟩
    let body := [Atom.link p (.var ⟨"x"⟩) (.var ⟨"y"⟩), .link p (.var ⟨"y"⟩) (.var ⟨"z"⟩),
      .builtin .notEqual [.var ⟨"x"⟩, .var ⟨"z"⟩]]
    ∃ query query', Query.ofParts "ends" body [⟨"x"⟩, ⟨"z"⟩] false = .ok query ∧
      Query.ofParts "ends" body.reverse [⟨"x"⟩, ⟨"z"⟩] false = .ok query' ∧
      (m.answer query).rows.Perm (m.answer query').rows := by
  intro p m body
  have hperm : body.Perm body.reverse := (List.reverse_perm body).symm
  obtain ⟨haccepted, hanswers⟩ := m.answer_perm hperm "ends" [⟨"x"⟩, ⟨"z"⟩]
  obtain ⟨query', hquery'⟩ := haccepted.1 ⟨_, rfl⟩
  exact ⟨_, query', rfl, hquery', (hanswers _ query' rfl hquery').1⟩

end HornOntology
