import HornOntology.Proofs.Solutions

set_option autoImplicit false

/-! # Comparisons are filters

A comparison binds nothing, and once its variables are bound its value no longer changes. So it
makes no difference when it is evaluated: matching a plan, which evaluates each comparison as early
as it can, gives the solutions of the class and property atoms alone, less those under which some
comparison of the body is not true, and leaves the order of the others as it is
(`solve_planFrom`). -/

namespace HornOntology

namespace Matcher

variable (m : Matcher)

/-! ## The value of a comparison -/

/-- Whether the atom lets the binding pass, as all but comparisons do. -/
def passes (b : Binding) : Atom EntityId → Bool
  | .builtin op args => op.evaluate args b m.registry = .ok true
  | .member _ _ | .link _ _ _ => true

theorem passes_of_isRelational {atom : Atom EntityId} (hrel : atom.isRelational = true)
    (b : Binding) : m.passes b atom = true := by
  cases atom with
  | builtin op args => simp [Atom.isRelational] at hrel
  | member cls arg => rfl
  | link property subject object => rfl

theorem runsIn_of_passes {atom : Atom EntityId} {b : Binding} (h : m.passes b atom = true) :
    atom.RunsIn b := by
  cases atom with
  | builtin op args =>
    obtain ⟨σ, hag⟩ := b.exists_agrees
    exact ((hag.evaluate_eq_ok_true_iff op args m.registry ∅).1 (of_decide_eq_true h)).2
  | member cls arg => exact fun hcompare => absurd hcompare (by simp [Atom.isRelational])
  | link property subject object =>
    exact fun hcompare => absurd hcompare (by simp [Atom.isRelational])

/-- A comparison whose variables are bound has the same value in every extension. -/
theorem passes_eq_of_extends {atom : Atom EntityId} {b b' : Binding} (hext : b'.Extends b)
    (hbound : ∀ v ∈ atom.vars, b.isBound v = true) : m.passes b' atom = m.passes b atom := by
  cases atom with
  | member cls arg => rfl
  | link property subject object => rfl
  | builtin op args =>
    have hbound' : ∀ v ∈ (Atom.builtin op args).vars, b'.isBound v = true := by
      intro v hv
      obtain ⟨id, hid⟩ := Binding.isBound_iff.1 (hbound v hv)
      exact Binding.isBound_iff.2 ⟨id, hext v id hid⟩
    -- one valuation agrees with both, and the comparison says the same of it
    obtain ⟨σ, hag'⟩ := b'.exists_agrees
    have hag : b.Agrees σ := fun v id hv => hag' v id (hext v id hv)
    refine decide_eq_decide.2 ?_
    rw [hag'.evaluate_eq_ok_true_iff op args m.registry ∅,
      hag.evaluate_eq_ok_true_iff op args m.registry ∅]
    exact and_congr_right fun _ => iff_of_true (fun _ => hbound') (fun _ => hbound)

/-! ## Matching comparisons -/

theorem matchAtom_comparison {atom : Atom EntityId} (hcompare : atom.isRelational = false)
    (b : Binding) : m.matchAtom atom b = if m.passes b atom then [b] else [] := by
  cases atom with
  | member cls arg => simp [Atom.isRelational] at hcompare
  | link property subject object => simp [Atom.isRelational] at hcompare
  | builtin op args =>
    simp only [matchAtom, filter, passes, decide_eq_true_eq]
    split
    · next htrue => rw [if_pos htrue]
    · next hfalse => rw [if_neg (by simp [hfalse])]
    · next e herror => rw [if_neg (by simp [herror])]

theorem solve_comparisons {comparisons : List (Atom EntityId)}
    (hcompare : ∀ atom ∈ comparisons, atom.isRelational = false) (b : Binding) :
    m.solve comparisons b = if comparisons.all (m.passes b) then [b] else [] := by
  induction comparisons with
  | nil => rfl
  | cons atom rest ih =>
    rw [List.forall_mem_cons] at hcompare
    rw [solve, m.matchAtom_comparison hcompare.1, List.all_cons]
    cases m.passes b atom with
    | true => simpa using ih hcompare.2
    | false => rfl

theorem solve_append (before after : List (Atom EntityId)) (b : Binding) :
    m.solve (before ++ after) b = (m.solve before b).flatMap (m.solve after) := by
  induction before generalizing b with
  | nil => simp [solve]
  | cons atom before ih =>
    rw [List.cons_append, solve, solve, List.flatMap_assoc]
    exact List.flatMap_congr fun b₁ _ => ih b₁

/-- A comparison that can run already may as well be evaluated at the end. -/
theorem solve_comparisons_append {comparisons : List (Atom EntityId)} {b : Binding}
    (hcompare : ∀ atom ∈ comparisons, atom.isRelational = false)
    (hbound : ∀ atom ∈ comparisons, ∀ v ∈ atom.vars, b.isBound v = true)
    (rest : List (Atom EntityId)) :
    m.solve (comparisons ++ rest) b =
      (m.solve rest b).filter fun b' => comparisons.all (m.passes b') := by
  have hsame : ∀ b' ∈ m.solve rest b,
      comparisons.all (m.passes b') = comparisons.all (m.passes b) := by
    intro b' hb'
    have hext := (m.satisfies_of_mem_solve hb').1
    rw [Bool.eq_iff_iff, List.all_eq_true, List.all_eq_true]
    refine forall₂_congr fun atom hatom => ?_
    rw [m.passes_eq_of_extends hext (hbound atom hatom)]
  rw [List.filter_congr hsame, solve_append, m.solve_comparisons hcompare]
  cases comparisons.all (m.passes b) with
  | true => simp
  | false => simp

/-! ## Matching a plan -/

/-- Matching the plan for the rest of a body gives the solutions of its class and property atoms
    that all atoms let pass. -/
theorem solve_planFrom {bound : List Variable} {pending : List (Atom EntityId)} {b : Binding}
    (hbound : ∀ v ∈ bound, b.isBound v = true)
    (hpending : ∀ atom ∈ pending, atom.isRelational = false) (body : List (Atom EntityId)) :
    m.solve (planFrom bound pending body) b =
      (m.solve (body.filter Atom.isRelational) b).filter fun b' =>
        (pending ++ body).all (m.passes b') := by
  induction body generalizing bound pending b with
  | nil =>
    have hcompare : ∀ atom ∈ planFrom bound pending [], atom.isRelational = false := by
      intro atom hatom
      have hmem := (planFrom_perm bound pending []).mem_iff.1 hatom
      exact hpending atom (by simpa using hmem)
    rw [m.solve_comparisons hcompare, (planFrom_perm bound pending []).all_eq]
    simp [solve, List.filter_cons]
  | cons atom rest ih =>
    rw [planFrom]
    split
    · next hrel =>
      have hready : ∀ a ∈ pending.filter (Atom.isReady bound),
          a.isRelational = false ∧ ∀ v ∈ a.vars, b.isBound v = true := by
        intro a ha
        obtain ⟨hmem, hvars⟩ := List.mem_filter.1 ha
        exact ⟨hpending a hmem, fun v hv => hbound v (isReady_iff.1 hvars v hv)⟩
      have hwaiting : ∀ a ∈ pending.filter (fun a => !a.isReady bound), a.isRelational = false :=
        fun a ha => hpending a (List.mem_of_mem_filter ha)
      rw [m.solve_comparisons_append (fun a ha => (hready a ha).1) (fun a ha => (hready a ha).2),
        List.filter_cons_of_pos hrel, solve, solve, List.filter_flatMap, List.filter_flatMap]
      refine List.flatMap_congr fun b₁ hb₁ => ?_
      have hbound₁ : ∀ v ∈ bound ++ atom.vars, b₁.isBound v = true := by
        intro v hv
        rw [m.isBound_of_mem_matchAtom hb₁ v]
        exact (List.mem_append.1 hv).imp (hbound v) (fun hatom => ⟨hrel, hatom⟩)
      rw [ih hbound₁ hwaiting, List.filter_filter]
      refine List.filter_congr fun b' _ => ?_
      -- the comparisons that run now and those that wait are all that were pending
      have hcut := (List.filter_append_perm (Atom.isReady bound) pending).all_eq (f := m.passes b')
      rw [List.all_append, List.all_append, List.all_cons, m.passes_of_isRelational hrel,
        Bool.true_and, ← Bool.and_assoc, ← List.all_append, hcut]
    · next hrel =>
      have hpending' : ∀ a ∈ pending ++ [atom], a.isRelational = false := by
        refine List.forall_mem_append.2 ⟨hpending, ?_⟩
        simpa using hrel
      rw [ih hbound hpending', List.filter_cons_of_neg hrel, List.append_assoc,
        List.singleton_append]

/-- Matching a plan gives the solutions of the class and property atoms, as written, that all atoms
    let pass. -/
theorem solve_plan (body : List (Atom EntityId)) (seed : Binding) :
    m.solve (plan body) seed =
      (m.solve (body.filter Atom.isRelational) seed).filter fun b => body.all (m.passes b) :=
  m.solve_planFrom (by simp) (by simp) body

/-- A solution of the class and property atoms that a comparison lets pass binds its variables. -/
theorem isBound_of_passes {body : List (Atom EntityId)} {seed b : Binding}
    (hb : b ∈ m.solve (body.filter Atom.isRelational) seed) {atom : Atom EntityId}
    (hcompare : atom.isRelational = false) (hpass : m.passes b atom = true) {v : Variable}
    (hv : v ∈ atom.vars) : seed.isBound v = true ∨ v ∈ boundVariables body := by
  have hbound : b.isBound v = true := m.runsIn_of_passes hpass hcompare v hv
  rw [m.isBound_of_mem_solve hb v] at hbound
  simpa [boundVariables] using hbound

/-- **Where a plan places comparisons does not show.** Matching a plan gives the solutions of the
    class and property atoms, as written, under which every comparison of the body evaluates to
    true, and it gives them in their order. A comparison with a variable that neither the seed nor
    a class or property atom binds leaves none. -/
theorem solve_plan_eq_filter (body : List (Atom EntityId)) (seed : Binding) :
    m.solve (plan body) seed =
      ((m.solve (body.filter Atom.isRelational) seed).filter fun b => body.all (m.passes b)) ∧
    ∀ op args v, Atom.builtin op args ∈ body → v ∈ (Atom.builtin op args).vars →
      seed.isBound v = false → v ∉ boundVariables body → m.solve (plan body) seed = [] := by
  refine ⟨m.solve_plan body seed, ?_⟩
  intro op args v hmem hv hseed hbody
  rw [m.solve_plan body seed]
  refine List.filter_eq_nil_iff.2 fun b hb hall => ?_
  rcases m.isBound_of_passes hb rfl (List.all_eq_true.1 hall _ hmem) hv with hbound | hbound
  · exact Bool.false_ne_true (hseed.symm.trans hbound)
  · exact hbody hbound

end Matcher

/-- Two links of a chain after a comparison of their ends, and after one with a variable of its
    own. -/
theorem Matcher.solve_plan_eq_filter_chain :
    let p : EntityId := ⟨1, by decide⟩
    let m : Matcher := ⟨chainStore, .empty⟩
    let links := [Atom.link p (.var ⟨"x"⟩) (.var ⟨"y"⟩), .link p (.var ⟨"y"⟩) (.var ⟨"z"⟩)]
    let early := Atom.builtin .notEqual [.var ⟨"x"⟩, .var ⟨"z"⟩]
    let unbound := Atom.builtin .equal [.var ⟨"x"⟩, .var ⟨"w"⟩]
    m.solve (plan (early :: links)) .empty =
        (m.solve links .empty).filter (fun b => (early :: links).all (m.passes b)) ∧
      m.solve (plan (unbound :: links)) .empty = [] := by
  intro p m links early unbound
  refine ⟨(m.solve_plan_eq_filter (early :: links) .empty).1, ?_⟩
  refine (m.solve_plan_eq_filter (unbound :: links) .empty).2 .equal
    [.var ⟨"x"⟩, .var ⟨"w"⟩] ⟨"w"⟩ List.mem_cons_self (by decide) rfl ?_
  decide

end HornOntology
