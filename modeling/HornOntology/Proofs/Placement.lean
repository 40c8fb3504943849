import HornOntology.Proofs.Slots
import Mathlib.Data.List.NodupEquivFin

set_option autoImplicit false

/-! # The places of atoms in a plan

Slots determine the place of every atom in a plan: class and property atoms as written, the
comparisons of a slot between them, also as written, and the comparisons without a slot at the end.
The plan is the only list that has the atoms at such places (`PlacedBySlot.eq_plan`). It runs a
comparison with a slot only where its variables are bound (`PlacedBySlot.mem_boundVariables_take`),
and as early as that (`PlacedBySlot.lt_of_ready`). -/

namespace HornOntology

variable {κ : Type}

/-! ## Places -/

/-- The list has the atoms of a body at places that their slots determine. -/
structure PlacedBySlot (body planned : List (Atom κ))
    (place : Fin body.length ≃ Fin planned.length) : Prop where
  get_place : ∀ p, planned.get (place p) = body.get p
  /-- Class and property atoms keep their order. -/
  relational_lt : ∀ p q, (body.get p).isRelational = true → (body.get q).isRelational = true →
    p < q → place p < place q
  /-- A comparison of slot `i` stands after the first `i` class and property atoms and before the
      others. -/
  relational_lt_iff : ∀ r p, (body.get r).isRelational = true →
    (body.get p).isRelational = false →
    (place r < place p ↔ (relationalBefore body r : ℕ∞) < slot body p)
  /-- The comparisons of a slot keep their order, and so do those without one. -/
  same_slot_lt : ∀ p q, (body.get p).isRelational = false → (body.get q).isRelational = false →
    slot body p = slot body q → p < q → place p < place q
  /-- Lower slots come first, and the comparisons without a slot last. -/
  slot_lt : ∀ p q, (body.get p).isRelational = false → (body.get q).isRelational = false →
    slot body p < slot body q → place p < place q

section Places

variable {body : List (Atom κ)}

theorem nodup_of_pairwise_turn {order : List (Fin body.length)}
    (h : order.Pairwise (turn body · < turn body ·)) : order.Nodup := by
  refine List.Pairwise.imp ?_ h
  intro p q hlt heq
  rw [heq] at hlt
  exact lt_irrefl _ hlt

/-- Positions in the order of their turns are placed by slot. -/
theorem exists_placedBySlot_map {order : List (Fin body.length)}
    (hsorted : order.Pairwise (turn body · < turn body ·)) (hall : ∀ p, p ∈ order) :
    ∃ place, PlacedBySlot body (order.map body.get) place := by
  let positions : Fin order.length ≃ Fin body.length :=
    (nodup_of_pairwise_turn hsorted).getEquivOfForallMemList order hall
  have hmono : StrictMono fun i => turn body (positions i) := List.pairwise_iff_get.1 hsorted
  let place : Fin body.length ≃ Fin (order.map body.get).length :=
    positions.symm.trans (finCongr (List.length_map body.get).symm)
  have hturn (p q : Fin body.length) : place p < place q ↔ turn body p < turn body q := by
    have hlt := hmono.lt_iff_lt (a := positions.symm p) (b := positions.symm q)
    simpa [place] using hlt.symm
  refine ⟨place, ?_, ?_, ?_, ?_, ?_⟩
  · intro p
    have hget : order.get (positions.symm p) = p := positions.apply_symm_apply p
    simpa [place] using congrArg body.get hget
  · intro p q hp hq hlt
    exact (hturn p q).2 (turn_lt_turn_of_relational hp hq hlt)
  · intro r p hr hp
    exact (hturn r p).trans (turn_relational_lt_iff hr hp)
  · intro p q hp hq hslot hlt
    exact (hturn p q).2 (turn_lt_turn_of_slot_eq hp hq hslot hlt)
  · intro p q hp hq hslot
    exact (hturn p q).2 (turn_lt_turn_of_slot_lt hp hq hslot)

namespace PlacedBySlot

variable {planned : List (Atom κ)} {place : Fin body.length ≃ Fin planned.length}

/-- Atoms that are placed by slot stand in the order of their turns. -/
theorem turn_lt (h : PlacedBySlot body planned place) {p q : Fin body.length}
    (hlt : place p < place q) : turn body p < turn body q := by
  -- the field for the two kinds of atoms either gives the turns or places `q` first
  have hne : p ≠ q := fun heq => lt_irrefl _ (heq ▸ hlt)
  cases hp : (body.get p).isRelational with
  | true =>
    cases hq : (body.get q).isRelational with
    | true =>
      rcases lt_or_gt_of_ne hne with hpq | hqp
      · exact turn_lt_turn_of_relational hp hq hpq
      · exact absurd hlt (h.relational_lt q p hq hp hqp).not_gt
    | false => exact (turn_relational_lt_iff hp hq).2 ((h.relational_lt_iff p q hp hq).1 hlt)
  | false =>
    cases hq : (body.get q).isRelational with
    | true =>
      refine turn_lt_relational hp hq (not_lt.1 fun hslot => ?_)
      exact absurd hlt ((h.relational_lt_iff q p hq hp).2 hslot).not_gt
    | false =>
      rcases lt_trichotomy (slot body p) (slot body q) with hslot | hslot | hslot
      · exact turn_lt_turn_of_slot_lt hp hq hslot
      · rcases lt_or_gt_of_ne hne with hpq | hqp
        · exact turn_lt_turn_of_slot_eq hp hq hslot hpq
        · exact absurd hlt (h.same_slot_lt q p hq hp hslot.symm hqp).not_gt
      · exact absurd hlt (h.slot_lt q p hq hp hslot).not_gt

/-- Only the plan is placed by slot. -/
theorem eq_plan (h : PlacedBySlot body planned place) : planned = plan body := by
  obtain ⟨order, hmap, hsorted, hall⟩ := exists_order_plan body
  let order' := (List.finRange planned.length).map place.symm
  have hmap' : order'.map body.get = planned := by
    have hget : body.get ∘ place.symm = planned.get := by
      funext i
      rw [Function.comp_apply, ← h.get_place, Equiv.apply_symm_apply]
    rw [List.map_map, hget, List.map_get_finRange]
  have hsorted' : order'.Pairwise (turn body · < turn body ·) := by
    rw [List.pairwise_map]
    refine (List.pairwise_lt_finRange _).imp fun {i j} hlt => h.turn_lt ?_
    simpa using hlt
  -- both lists have every position, in the order of turns
  have hsame : order' = order := by
    have hperm : order'.Perm order := by
      refine (List.perm_ext_iff_of_nodup (nodup_of_pairwise_turn hsorted')
        (nodup_of_pairwise_turn hsorted)).2 fun p => ?_
      exact iff_of_true (List.mem_map.2 ⟨place p, List.mem_finRange _, by simp⟩) (hall p)
    refine hperm.eq_of_pairwise ?_ hsorted' hsorted
    intro a b _ _ hab hba
    exact absurd hab hba.not_gt
  rw [← hmap', hsame, hmap]

end PlacedBySlot

end Places

/-! ## Running in slots -/

/-- What is bound before a position, by positions. -/
theorem mem_boundVariables_take_iff {atoms : List (Atom κ)} {q : Nat} {v : Variable} :
    v ∈ boundVariables (atoms.take q) ↔
      ∃ r : Fin atoms.length, (r : Nat) < q ∧
        (atoms.get r).isRelational = true ∧ v ∈ (atoms.get r).vars := by
  simp only [mem_boundVariables, List.mem_take_iff_getElem]
  constructor
  · rintro ⟨atom, ⟨r, hr, rfl⟩, hbinds⟩
    exact ⟨⟨r, (lt_min_iff.1 hr).2⟩, (lt_min_iff.1 hr).1, hbinds⟩
  · rintro ⟨r, hr, hbinds⟩
    exact ⟨atoms.get r, ⟨r, lt_min hr r.isLt, rfl⟩, hbinds⟩

namespace PlacedBySlot

variable {body planned : List (Atom κ)} {place : Fin body.length ≃ Fin planned.length}

theorem mem_boundVariables_take_place_iff (h : PlacedBySlot body planned place)
    {q : Fin body.length} {v : Variable} :
    v ∈ boundVariables (planned.take (place q)) ↔
      ∃ r, place r < place q ∧ (body.get r).isRelational = true ∧ v ∈ (body.get r).vars := by
  rw [mem_boundVariables_take_iff, place.surjective.exists]
  simp only [h.get_place, Fin.lt_def]

/-- A variable of a comparison that some class or property atom binds is bound before it. -/
theorem exists_relational_lt (h : PlacedBySlot body planned place) {p r : Fin body.length}
    (hcompare : (body.get p).isRelational = false) (hrel : (body.get r).isRelational = true)
    {v : Variable} (hp : v ∈ (body.get p).vars) (hr : v ∈ (body.get r).vars) :
    ∃ r', place r' < place p ∧ (body.get r').isRelational = true ∧ v ∈ (body.get r').vars := by
  -- if `r` itself comes too late, the comparison has its slot before `r`, so that an atom written
  -- before `r` binds the variable too
  induction r using WellFoundedLT.induction with
  | ind r ih =>
    by_cases hlt : place r < place p
    · exact ⟨r, hlt, hrel, hr⟩
    · have hslot : slot body p ≤ relationalBefore body r :=
        not_lt.1 fun hslot => hlt ((h.relational_lt_iff r p hrel hcompare).2 hslot)
      have hpr : p ≤ r := by
        refine not_lt.1 fun hrp => not_le.2 (relationalBefore_lt hrel hrp) ?_
        exact Nat.cast_le.1 ((relationalBefore_le_slot body p).trans hslot)
      have hready := isReady_iff.1 ((readyAt_iff hpr).2 hslot) v hp
      obtain ⟨r', hlt', hrel', hr'⟩ := mem_boundVariables_take_iff.1 hready
      exact ih r' hlt' hrel' hr'

/-- What stands before a comparison with a slot binds all its variables. -/
theorem mem_boundVariables_take (h : PlacedBySlot body planned place) {p : Fin body.length}
    (hcompare : (body.get p).isRelational = false) (hslot : slot body p ≠ ⊤) {v : Variable}
    (hv : v ∈ (body.get p).vars) : v ∈ boundVariables (planned.take (place p)) := by
  have hbound : v ∈ boundVariables body := by
    by_contra hfree
    exact hslot (slot_eq_top_iff.2 ⟨v, hv, hfree⟩)
  rw [mem_boundVariables] at hbound
  obtain ⟨atom, hatom, hrel, hr⟩ := hbound
  obtain ⟨r, rfl⟩ := List.mem_iff_get.1 hatom
  exact h.mem_boundVariables_take_place_iff.2 (h.exists_relational_lt hcompare hrel hv hr)

/-- A comparison comes before every later class or property atom before which it can run. -/
theorem lt_of_ready (h : PlacedBySlot body planned place) {p r : Fin body.length}
    (hcompare : (body.get p).isRelational = false) (hrel : (body.get r).isRelational = true)
    (hpr : p < r)
    (hready : ∀ v ∈ (body.get p).vars, v ∈ boundVariables (planned.take (place r))) :
    place p < place r := by
  -- what binds the variables before `r` in the list is also written before `r`
  have hbefore : readyAt body r p = true := by
    refine isReady_iff.2 fun v hv => ?_
    obtain ⟨r', hlt, hrel', hr'⟩ := h.mem_boundVariables_take_place_iff.1 (hready v hv)
    have hlt' : r' < r := by
      refine not_le.1 fun hle => not_le.2 hlt ?_
      rcases hle.eq_or_lt with rfl | hlt''
      · exact le_rfl
      · exact (h.relational_lt r r' hrel hrel' hlt'').le
    exact mem_boundVariables_take_iff.2 ⟨r', hlt', hrel', hr'⟩
  have hnot : ¬ place r < place p := fun hlt =>
    not_le.2 ((h.relational_lt_iff r p hrel hcompare).1 hlt) ((readyAt_iff hpr.le).1 hbefore)
  exact lt_of_le_of_ne (not_lt.1 hnot) fun heq => hpr.ne (place.injective heq)

end PlacedBySlot

/-- A comparison with all its variables bound has a value. -/
theorem Builtin.exists_evaluate_eq_ok {op : Builtin} {args : List (Term EntityId)} {b : Binding}
    (hbound : ∀ v ∈ (Atom.builtin op args).vars, b.isBound v = true) (registry : Registry) :
    ∃ holds, op.evaluate args b registry = .ok holds := by
  obtain ⟨σ, hag⟩ := b.exists_agrees
  have hvalues : op.values args b = .ok (args.map (Term.valueAt σ)) := by
    rw [values_eq_ok_iff, hag.map_resolve?_eq_iff]
    exact ⟨rfl, hbound⟩
  unfold evaluate
  rw [hvalues]
  simp only [bind, Except.bind]
  split
  · exact ⟨_, rfl⟩
  · exact ⟨_, rfl⟩

/-- **What a plan is.** The plan has the same atoms as the body, and each of them has a place that
    is determined by slots. A comparison that is written after `j` class and property atoms, and
    whose variables the first `k` of them bind, with `k` as small as possible, has the slot
    `max j k`; it has none if some variable of it is bound by no class or property atom. A
    comparison with a slot is only run with all its arguments bound, and it comes before every class
    or property atom written after it before which it can run. No other list is placed by slot. -/
theorem plan_placedBySlot (body : List (Atom EntityId)) :
    (plan body).Perm body ∧
    (∀ p k, IsLeast {k | ∀ v ∈ (body.get p).vars, v ∈ boundByFirst body k} k →
      slot body p = (max (relationalBefore body p) k : Nat)) ∧
    (∀ p, slot body p = ⊤ ↔ ∃ v ∈ (body.get p).vars, v ∉ boundVariables body) ∧
    (∃ place : Fin body.length ≃ Fin (plan body).length, PlacedBySlot body (plan body) place ∧
      (∀ p op args, body.get p = .builtin op args → slot body p ≠ ⊤ →
        ∀ (m : Matcher) (seed : Binding), ∀ b ∈ m.solve ((plan body).take (place p)) seed,
          ∃ holds, op.evaluate args b m.registry = .ok holds) ∧
      ∀ p r, (body.get p).isRelational = false → (body.get r).isRelational = true → p < r →
        (∀ v ∈ (body.get p).vars, v ∈ boundVariables ((plan body).take (place r))) →
          place p < place r) ∧
    ∀ planned place, PlacedBySlot body planned place → planned = plan body := by
  refine ⟨plan_perm body, fun p k => slot_eq_max, fun p => slot_eq_top_iff, ?_,
    fun planned place h => h.eq_plan⟩
  obtain ⟨order, hmap, hsorted, hall⟩ := exists_order_plan body
  obtain ⟨place, hplace⟩ := exists_placedBySlot_map hsorted hall
  rw [← hmap]
  refine ⟨place, hplace, ?_, fun p r hp hr hlt => hplace.lt_of_ready hp hr hlt⟩
  intro p op args hatom hslot m seed b hb
  have hcompare : (body.get p).isRelational = false := by rw [hatom, Atom.isRelational]
  refine Builtin.exists_evaluate_eq_ok (fun v hv => ?_) m.registry
  rw [← hatom] at hv
  exact (m.isBound_of_mem_solve hb v).2 (.inr (hplace.mem_boundVariables_take hcompare hslot hv))

/-- A comparison that is written twice, before and between the atoms that bind its variables, with
    one that has a variable of its own and one that has none. -/
theorem plan_placedBySlot_deferred :
    let c : EntityId := ⟨1, by decide⟩
    let args : List (Term EntityId) := [.var ⟨"x"⟩, .var ⟨"y"⟩]
    let less : Atom EntityId := .builtin .lessThan args
    let free : Atom EntityId := .builtin .equal [.var ⟨"x"⟩, .var ⟨"w"⟩]
    let same : Atom EntityId := .builtin .equal [.const c, .const c]
    let body := [less, free, .member c (.var ⟨"x"⟩), same, less, .member c (.var ⟨"y"⟩)]
    slot body (0 : Fin 6) = 2 ∧ slot body (1 : Fin 6) = ⊤ ∧ slot body (4 : Fin 6) = 2 ∧
    (∃ place : Fin 6 ≃ Fin (plan body).length,
      (place 2 < place 3 ∧ place 3 < place 5 ∧ place 5 < place 0 ∧ place 0 < place 4 ∧
        place 4 < place 1) ∧
      ∀ (m : Matcher) (seed : Binding), ∀ b ∈ m.solve ((plan body).take (place 0)) seed,
        ∃ holds, Builtin.lessThan.evaluate args b m.registry = .ok holds) ∧
    ∀ planned place, PlacedBySlot body planned place →
      planned = [.member c (.var ⟨"x"⟩), same, .member c (.var ⟨"y"⟩), less, less, free] := by
  intro c args less free same body
  obtain ⟨-, hslot, htop, ⟨place, hplaced, hrun, hearly⟩, honly⟩ := plan_placedBySlot body
  have hleast : IsLeast {k | ∀ v ∈ less.vars, v ∈ boundByFirst body k} 2 :=
    bindingCount?_eq_some_iff.1 (by decide)
  have hfirst : slot body (0 : Fin 6) = 2 := hslot (0 : Fin 6) 2 hleast
  have hagain : slot body (4 : Fin 6) = 2 := hslot (4 : Fin 6) 2 hleast
  have hnone : slot body (1 : Fin 6) = ⊤ := (htop (1 : Fin 6)).2 ⟨⟨"w"⟩, by decide, by decide⟩
  have hconst : slot body (3 : Fin 6) = 1 :=
    hslot (3 : Fin 6) 0 (bindingCount?_eq_some_iff.1 (by decide))
  refine ⟨hfirst, hnone, hagain, ⟨place, ⟨?_, ?_, ?_, ?_, ?_⟩, ?_⟩, ?_⟩
  · refine (hplaced.relational_lt_iff (2 : Fin 6) (3 : Fin 6) rfl rfl).2 ?_
    rw [hconst]
    exact Nat.cast_lt.2 (by decide)
  · refine hearly (3 : Fin 6) (5 : Fin 6) rfl rfl (by decide) ?_
    intro v hv
    exact absurd hv List.not_mem_nil
  · refine (hplaced.relational_lt_iff (5 : Fin 6) (0 : Fin 6) rfl rfl).2 ?_
    rw [hfirst]
    exact Nat.cast_lt.2 (by decide)
  · exact hplaced.same_slot_lt (0 : Fin 6) (4 : Fin 6) rfl rfl (hfirst.trans hagain.symm)
      (by decide)
  · refine hplaced.slot_lt (4 : Fin 6) (1 : Fin 6) rfl rfl ?_
    rw [hagain, hnone]
    exact ENat.natCast_lt_top 2
  · refine hrun (0 : Fin 6) .lessThan args rfl ?_
    rw [hfirst]
    exact ENat.natCast_ne_top 2
  · intro planned place hother
    exact (honly planned place hother).trans (by decide)

end HornOntology
