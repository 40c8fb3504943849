import HornOntology.Proofs.Plan
import Mathlib.Data.ENat.Basic
import Mathlib.Data.List.TakeDrop
import Mathlib.Data.Prod.Lex

set_option autoImplicit false

/-! # The slots of a plan

The class and property atoms of a body keep their order in its plan, and leave slots for the
comparisons between them: slot `i` comes after `i` of them. The `slot` of a comparison is the first
one, at or after its written place, in which its variables are bound. So each atom has its `turn`,
and the plan has the atoms in the order of their turns (`exists_order_plan`): the comparisons that
wait while the body is read are those whose slot is still to come (`Waiting`).

An atom is known by its position in the body, as the same atom may be written more than once. -/

namespace HornOntology

variable {κ : Type}

/-! ## Counting class and property atoms -/

/-- How many class and property atoms stand before a position. -/
def relationalBefore (body : List (Atom κ)) (position : Nat) : Nat :=
  (body.take position).countP Atom.isRelational

/-- The variables that the first `k` class and property atoms bind. -/
def boundByFirst (body : List (Atom κ)) (k : Nat) : List Variable :=
  boundVariables ((body.filter Atom.isRelational).take k)

theorem relationalBefore_mono (body : List (Atom κ)) {p q : Nat} (h : p ≤ q) :
    relationalBefore body p ≤ relationalBefore body q :=
  (List.take_sublist_take_left h).countP_le

theorem relationalBefore_succ (body : List (Atom κ)) (q : Fin body.length) :
    relationalBefore body (q + 1) =
      relationalBefore body q + if (body.get q).isRelational then 1 else 0 := by
  unfold relationalBefore
  rw [← List.take_append_getElem q.isLt, List.countP_append, List.countP_singleton]
  rfl

theorem relationalBefore_lt {body : List (Atom κ)} {q : Fin body.length}
    (hrel : (body.get q).isRelational = true) {p : Nat} (h : q < p) :
    relationalBefore body q < relationalBefore body p := by
  have hsucc := relationalBefore_succ body q
  rw [if_pos hrel] at hsucc
  calc relationalBefore body q < relationalBefore body (q + 1) := by omega
    _ ≤ relationalBefore body p := relationalBefore_mono body h

theorem boundByFirst_mono (body : List (Atom κ)) {k l : Nat} (h : k ≤ l) :
    boundByFirst body k ⊆ boundByFirst body l := by
  intro v hv
  unfold boundByFirst at hv ⊢
  rw [mem_boundVariables] at hv ⊢
  obtain ⟨atom, hatom, hbinds⟩ := hv
  exact ⟨atom, List.take_subset_take_left _ h hatom, hbinds⟩

theorem boundVariables_concat (body : List (Atom κ)) (atom : Atom κ) :
    boundVariables (body ++ [atom]) =
      boundVariables body ++ if atom.isRelational then atom.vars else [] := by
  cases hrel : atom.isRelational <;> simp [boundVariables, hrel]

theorem boundVariables_take_succ (body : List (Atom κ)) (q : Fin body.length) :
    boundVariables (body.take (q + 1)) = boundVariables (body.take q) ++
      if (body.get q).isRelational then (body.get q).vars else [] := by
  rw [← List.take_append_getElem q.isLt]
  exact boundVariables_concat _ _

/-- The atoms before a position bind what the class and property atoms among them bind. -/
theorem boundByFirst_relationalBefore (body : List (Atom κ)) (q : Nat) :
    boundByFirst body (relationalBefore body q) = boundVariables (body.take q) := by
  have hfirst : (body.filter Atom.isRelational).take (relationalBefore body q) =
      (body.take q).filter Atom.isRelational := by
    conv_lhs => rw [← List.take_append_drop q body, List.filter_append]
    rw [relationalBefore, List.take_append_drop, List.countP_eq_length_filter, List.take_left]
  rw [boundByFirst, hfirst]
  simp [boundVariables]

theorem boundByFirst_countP (body : List (Atom κ)) :
    boundByFirst body (body.countP Atom.isRelational) = boundVariables body := by
  have h := boundByFirst_relationalBefore body body.length
  rwa [relationalBefore, List.take_length] at h

/-- No number of class and property atoms binds more than all of them. -/
theorem boundByFirst_subset (body : List (Atom κ)) (k : Nat) :
    boundByFirst body k ⊆ boundVariables body := by
  intro v hv
  unfold boundByFirst at hv
  rw [mem_boundVariables] at hv ⊢
  obtain ⟨atom, hatom, hbinds⟩ := hv
  exact ⟨atom, List.mem_of_mem_filter (List.mem_of_mem_take hatom), hbinds⟩

/-! ## Slots -/

/-- The least number of class and property atoms, from the first on, that bind all variables of an
    atom, if all of them together do. -/
def bindingCount? (body : List (Atom κ)) (atom : Atom κ) : Option Nat :=
  (List.range (body.countP Atom.isRelational + 1)).find? fun k => atom.isReady (boundByFirst body k)

/-- The slot of the comparison at a position: it comes after the class and property atoms written
    before it, and after those that it takes to bind its variables. A comparison with a variable
    that none of them binds has no slot, and comes last. -/
def slot (body : List (Atom κ)) (p : Fin body.length) : ℕ∞ :=
  match bindingCount? body (body.get p) with
  | some k => (max (relationalBefore body p) k : Nat)
  | none => ⊤

theorem bindingCount?_eq_some_iff {body : List (Atom κ)} {atom : Atom κ} {k : Nat} :
    bindingCount? body atom = some k ↔
      IsLeast {k | ∀ v ∈ atom.vars, v ∈ boundByFirst body k} k := by
  unfold bindingCount?
  simp only [List.find?_range_eq_some, isReady_iff, Bool.not_eq_true', ← Bool.not_eq_true]
  constructor
  · rintro ⟨hbound, -, hless⟩
    exact ⟨hbound, fun l hl => not_lt.1 fun hlt => hless l hlt hl⟩
  · intro hleast
    have hall : k ≤ body.countP Atom.isRelational := by
      refine hleast.2 fun v hv => ?_
      rw [boundByFirst_countP]
      exact boundByFirst_subset body k (hleast.1 v hv)
    exact ⟨hleast.1, List.mem_range.2 (Nat.lt_succ_of_le hall),
      fun l hlt hl => not_le.2 hlt (hleast.2 hl)⟩

theorem bindingCount?_eq_none_iff {body : List (Atom κ)} {atom : Atom κ} :
    bindingCount? body atom = none ↔ ∃ v ∈ atom.vars, v ∉ boundVariables body := by
  unfold bindingCount?
  simp only [List.find?_range_eq_none, Bool.not_eq_true', ← Bool.not_eq_true, isReady_iff]
  constructor
  · intro h
    have hall := h _ (Nat.lt_succ_self _)
    rw [boundByFirst_countP] at hall
    simpa using hall
  · rintro ⟨v, hv, hfree⟩ k - hbound
    exact hfree (boundByFirst_subset body k (hbound v hv))

/-- Whether the atoms before a position bind all variables of the atom at another. -/
def readyAt (body : List (Atom κ)) (q : Nat) (p : Fin body.length) : Bool :=
  (body.get p).isReady (boundVariables (body.take q))

section Slot

variable {body : List (Atom κ)} {p : Fin body.length}

theorem slot_eq_max {k : Nat}
    (h : IsLeast {k | ∀ v ∈ (body.get p).vars, v ∈ boundByFirst body k} k) :
    slot body p = (max (relationalBefore body p) k : Nat) := by
  rw [slot, bindingCount?_eq_some_iff.2 h]

theorem slot_eq_top_iff :
    slot body p = ⊤ ↔ ∃ v ∈ (body.get p).vars, v ∉ boundVariables body := by
  rw [← bindingCount?_eq_none_iff, slot]
  cases bindingCount? body (body.get p) with
  | none => simp
  | some k => simp

theorem relationalBefore_le_slot (body : List (Atom κ)) (p : Fin body.length) :
    (relationalBefore body p : ℕ∞) ≤ slot body p := by
  unfold slot
  cases bindingCount? body (body.get p) with
  | none => exact le_top
  | some k => exact Nat.cast_le.2 (le_max_left _ _)

/-- At a later position a comparison is ready exactly if its slot has come. -/
theorem readyAt_iff {q : Nat} (h : p ≤ q) :
    readyAt body q p = true ↔ slot body p ≤ relationalBefore body q := by
  rw [readyAt, isReady_iff, ← boundByFirst_relationalBefore]
  cases hcount : bindingCount? body (body.get p) with
  | none =>
    obtain ⟨v, hv, hfree⟩ := bindingCount?_eq_none_iff.1 hcount
    have hslot : slot body p = ⊤ := slot_eq_top_iff.2 ⟨v, hv, hfree⟩
    refine iff_of_false (fun hbound => hfree ?_) (by simp [hslot])
    exact boundByFirst_subset body _ (hbound v hv)
  | some k =>
    have hleast := bindingCount?_eq_some_iff.1 hcount
    rw [slot_eq_max hleast, Nat.cast_le, max_le_iff]
    constructor
    · intro hbound
      exact ⟨relationalBefore_mono body h, hleast.2 hbound⟩
    · intro hle v hv
      exact boundByFirst_mono body hle.2 (hleast.1 v hv)

end Slot

/-! ## The order of a plan -/

/-- When the atom at a position has its turn: the comparisons of a slot in written order, then the
    class or property atom that ends the slot. -/
def turn (body : List (Atom κ)) (p : Fin body.length) : ℕ∞ ×ₗ Nat :=
  if (body.get p).isRelational then toLex (relationalBefore body p, body.length)
  else toLex (slot body p, p)

section Turn

variable {body : List (Atom κ)} {p q : Fin body.length}

theorem turn_of_relational (hrel : (body.get p).isRelational = true) :
    turn body p = toLex ((relationalBefore body p : ℕ∞), body.length) := if_pos hrel

theorem turn_of_comparison (hcompare : (body.get p).isRelational = false) :
    turn body p = toLex (slot body p, (p : Nat)) := if_neg (Bool.eq_false_iff.1 hcompare)

theorem turn_lt_turn_of_slot_eq (hp : (body.get p).isRelational = false)
    (hq : (body.get q).isRelational = false) (hslot : slot body p = slot body q) (h : p < q) :
    turn body p < turn body q := by
  rw [turn_of_comparison hp, turn_of_comparison hq, Prod.Lex.toLex_lt_toLex]
  exact Or.inr ⟨hslot, h⟩

theorem turn_lt_turn_of_slot_lt (hp : (body.get p).isRelational = false)
    (hq : (body.get q).isRelational = false) (hslot : slot body p < slot body q) :
    turn body p < turn body q := by
  rw [turn_of_comparison hp, turn_of_comparison hq, Prod.Lex.toLex_lt_toLex]
  exact Or.inl hslot

theorem turn_lt_turn_of_relational (hp : (body.get p).isRelational = true)
    (hq : (body.get q).isRelational = true) (h : p < q) : turn body p < turn body q := by
  rw [turn_of_relational hp, turn_of_relational hq, Prod.Lex.toLex_lt_toLex]
  exact Or.inl (Nat.cast_lt.2 (relationalBefore_lt hp h))

/-- A class or property atom has its turn before the comparisons of the slots after it. -/
theorem turn_relational_lt_iff (hp : (body.get p).isRelational = true)
    (hq : (body.get q).isRelational = false) :
    turn body p < turn body q ↔ (relationalBefore body p : ℕ∞) < slot body q := by
  rw [turn_of_relational hp, turn_of_comparison hq, Prod.Lex.toLex_lt_toLex]
  have hlt := q.isLt
  simp only [or_iff_left_iff_imp, and_imp]
  omega

theorem turn_lt_relational (hp : (body.get p).isRelational = false)
    (hq : (body.get q).isRelational = true) (h : slot body p ≤ relationalBefore body q) :
    turn body p < turn body q := by
  rw [turn_of_comparison hp, turn_of_relational hq, Prod.Lex.toLex_lt_toLex]
  exact h.lt_or_eq.imp_right fun heq => ⟨heq, p.isLt⟩

/-- What is written after a class or property atom has its turn after it. -/
theorem turn_lt_turn_of_relational_lt (hp : (body.get p).isRelational = true) (h : p < q) :
    turn body p < turn body q := by
  cases hq : (body.get q).isRelational with
  | true => exact turn_lt_turn_of_relational hp hq h
  | false =>
    refine (turn_relational_lt_iff hp hq).2 (lt_of_lt_of_le ?_ (relationalBefore_le_slot body q))
    exact Nat.cast_lt.2 (relationalBefore_lt hp h)

end Turn

/-! ## Reading the body -/

/-- What holds of the comparisons that wait when a position is reached. -/
structure Waiting (body : List (Atom κ)) (q : Nat) (pending : List (Fin body.length)) : Prop where
  ascending : pending.Pairwise (· < ·)
  lt : ∀ p ∈ pending, (p : Nat) < q
  comparison : ∀ p ∈ pending, (body.get p).isRelational = false
  /-- Their slots have not gone by. -/
  le_slot : ∀ p ∈ pending, (relationalBefore body q : ℕ∞) ≤ slot body p

namespace Waiting

variable {body : List (Atom κ)} {pending : List (Fin body.length)}

/-- Of the comparisons that wait, those that are ready have their slot now. -/
theorem slot_eq {q : Nat} (h : Waiting body q pending) {p : Fin body.length}
    (hp : p ∈ pending.filter (readyAt body q)) : slot body p = relationalBefore body q := by
  rw [List.mem_filter] at hp
  exact le_antisymm ((readyAt_iff (h.lt p hp.1).le).1 hp.2) (h.le_slot p hp.1)

theorem lt_slot {q : Nat} (h : Waiting body q pending) {p : Fin body.length}
    (hp : p ∈ pending.filter (!readyAt body q ·)) :
    (relationalBefore body q : ℕ∞) < slot body p := by
  rw [List.mem_filter, Bool.not_eq_true'] at hp
  rw [← not_le, ← readyAt_iff (h.lt p hp.1).le, hp.2]
  exact Bool.false_ne_true

theorem pairwise_turn {q : Nat} (h : Waiting body q pending) {i : ℕ∞}
    {keep : Fin body.length → Bool} (hslot : ∀ p ∈ pending.filter keep, slot body p = i) :
    (pending.filter keep).Pairwise (turn body · < turn body ·) := by
  refine (h.ascending.filter keep).imp_of_mem ?_
  intro p r hp hr hlt
  exact turn_lt_turn_of_slot_eq (h.comparison p (List.mem_of_mem_filter hp))
    (h.comparison r (List.mem_of_mem_filter hr)) ((hslot p hp).trans (hslot r hr).symm) hlt

/-- A comparison begins to wait where it is written. -/
theorem push {q : Fin body.length} (h : Waiting body q pending)
    (hcompare : (body.get q).isRelational = false) : Waiting body (q + 1) (pending ++ [q]) := by
  have hcount : relationalBefore body (q + 1) = relationalBefore body q := by
    rw [relationalBefore_succ, if_neg (Bool.eq_false_iff.1 hcompare), Nat.add_zero]
  constructor
  · refine List.pairwise_append.2 ⟨h.ascending, List.pairwise_singleton _ _, ?_⟩
    intro p hp r hr
    rw [List.mem_singleton.1 hr]
    exact h.lt p hp
  · simp only [List.forall_mem_append, List.forall_mem_singleton]
    exact ⟨fun p hp => Nat.lt_succ_of_lt (h.lt p hp), Nat.lt_succ_self _⟩
  · simp only [List.forall_mem_append, List.forall_mem_singleton]
    exact ⟨h.comparison, hcompare⟩
  · simp only [List.forall_mem_append, List.forall_mem_singleton, hcount]
    exact ⟨h.le_slot, relationalBefore_le_slot body q⟩

/-- What is not ready before a class or property atom waits on after it. -/
theorem pass {q : Fin body.length} (h : Waiting body q pending)
    (hrel : (body.get q).isRelational = true) :
    Waiting body (q + 1) (pending.filter (!readyAt body q ·)) := by
  constructor
  · exact h.ascending.filter _
  · intro p hp
    exact Nat.lt_succ_of_lt (h.lt p (List.mem_of_mem_filter hp))
  · intro p hp
    exact h.comparison p (List.mem_of_mem_filter hp)
  · intro p hp
    rw [relationalBefore_succ, if_pos hrel, Nat.cast_add, Nat.cast_one]
    exact Order.add_one_le_of_lt (h.lt_slot hp)

end Waiting

/-- The list gives the positions of the waiting comparisons, and those still to come, in the order
    of their turns, and the plan for the rest of the body has their atoms in this order. -/
structure Orders (body : List (Atom κ)) (q : Nat) (pending order : List (Fin body.length)) :
    Prop where
  map_get : order.map body.get =
    planFrom (boundVariables (body.take q)) (pending.map body.get) (body.drop q)
  sorted : order.Pairwise (turn body · < turn body ·)
  mem_iff : ∀ p, p ∈ order ↔ p ∈ pending ∨ q ≤ p

section Orders

variable {body : List (Atom κ)} {pending order : List (Fin body.length)}

/-- The positions to come are the next one and those after it. -/
theorem le_iff_eq_or_succ_le {n : Nat} (q p : Fin n) :
    (q : Nat) ≤ p ↔ p = q ∨ (q : Nat) + 1 ≤ p := by
  rw [Fin.ext_iff]
  omega

/-- At the end of the body the comparisons that are ready come first. -/
theorem Waiting.orders_end {q : Nat} (h : Waiting body q pending) (hend : body.length ≤ q) :
    Orders body q pending
      (pending.filter (readyAt body q) ++ pending.filter (!readyAt body q ·)) := by
  constructor
  · rw [List.drop_of_length_le hend, planFrom, List.map_append, List.filter_map, List.filter_map]
    rfl
  · have hnever : ∀ p ∈ pending.filter (!readyAt body q ·), slot body p = ⊤ := by
      intro p hp
      rw [List.mem_filter, Bool.not_eq_true', ← Bool.not_eq_true, readyAt, isReady_iff,
        List.take_of_length_le hend] at hp
      rw [slot_eq_top_iff]
      simpa using hp.2
    refine List.pairwise_append.2
      ⟨h.pairwise_turn fun p => h.slot_eq, h.pairwise_turn hnever, ?_⟩
    intro p hp r hr
    refine turn_lt_turn_of_slot_lt (h.comparison p (List.mem_of_mem_filter hp))
      (h.comparison r (List.mem_of_mem_filter hr)) ?_
    rw [h.slot_eq hp, hnever r hr]
    exact ENat.natCast_lt_top _
  · intro p
    have hp : ¬ q ≤ p := not_le.2 (lt_of_lt_of_le p.isLt hend)
    cases hready : readyAt body q p <;> simp [hready, hp]

/-- A class or property atom comes after the comparisons that are ready and before the others. -/
theorem Orders.relational {q : Fin body.length} (hwait : Waiting body q pending)
    (hrel : (body.get q).isRelational = true)
    (h : Orders body (q + 1) (pending.filter (!readyAt body q ·)) order) :
    Orders body q pending (pending.filter (readyAt body q) ++ q :: order) := by
  constructor
  · rw [← List.cons_get_drop_succ, planFrom, if_pos hrel, List.map_append, List.map_cons,
      h.map_get, boundVariables_take_succ, if_pos hrel, List.filter_map, List.filter_map]
    rfl
  · -- the atom itself parts what has had its turn from what is to have it
    have hbefore : ∀ p ∈ pending.filter (readyAt body q), turn body p < turn body q := by
      intro p hp
      exact turn_lt_relational (hwait.comparison p (List.mem_of_mem_filter hp)) hrel
        (hwait.slot_eq hp).le
    have hafter : ∀ p ∈ order, turn body q < turn body p := by
      intro p hp
      rcases (h.mem_iff p).1 hp with hp | hp
      · exact (turn_relational_lt_iff hrel (hwait.comparison p (List.mem_of_mem_filter hp))).2
          (hwait.lt_slot hp)
      · exact turn_lt_turn_of_relational_lt hrel hp
    refine List.pairwise_append.2 ⟨hwait.pairwise_turn fun p => hwait.slot_eq,
      List.pairwise_cons.2 ⟨hafter, h.sorted⟩, ?_⟩
    intro p hp
    rw [List.forall_mem_cons]
    exact ⟨hbefore p hp, fun r hr => (hbefore p hp).trans (hafter r hr)⟩
  · intro p
    rw [List.mem_append, List.mem_cons, h.mem_iff p, le_iff_eq_or_succ_le]
    cases hready : readyAt body q p <;> simp [hready, or_left_comm]

theorem Orders.comparison {q : Fin body.length} (hcompare : (body.get q).isRelational = false)
    (h : Orders body (q + 1) (pending ++ [q]) order) : Orders body q pending order := by
  constructor
  · have hneg := Bool.eq_false_iff.1 hcompare
    rw [← List.cons_get_drop_succ, planFrom, if_neg hneg, h.map_get,
      boundVariables_take_succ, if_neg hneg, List.append_nil, List.map_append]
    rfl
  · exact h.sorted
  · intro p
    rw [h.mem_iff p, List.mem_append, List.mem_singleton, le_iff_eq_or_succ_le, or_assoc]

end Orders

/-- The plan for the rest of a body goes by turns. -/
theorem Waiting.exists_orders {body : List (Atom κ)} {q : Nat} {pending : List (Fin body.length)}
    (hwait : Waiting body q pending) : ∃ order, Orders body q pending order := by
  -- by induction over the part of the body that is still to come
  induction hn : body.length - q generalizing q pending with
  | zero => exact ⟨_, hwait.orders_end (Nat.sub_eq_zero_iff_le.1 hn)⟩
  | succ n ih =>
    obtain ⟨q, rfl⟩ : ∃ here : Fin body.length, q = here := ⟨⟨q, by omega⟩, rfl⟩
    cases hrel : (body.get q).isRelational with
    | true =>
      obtain ⟨order, horder⟩ := ih (hwait.pass hrel) (by omega)
      exact ⟨_, horder.relational hwait hrel⟩
    | false =>
      obtain ⟨order, horder⟩ := ih (hwait.push hrel) (by omega)
      exact ⟨order, horder.comparison hrel⟩

/-- The atoms of a plan are the atoms of the body, in the order of their turns. -/
theorem exists_order_plan (body : List (Atom κ)) :
    ∃ order : List (Fin body.length), order.map body.get = plan body ∧
      order.Pairwise (turn body · < turn body ·) ∧ ∀ p, p ∈ order := by
  have hstart : Waiting body 0 [] := ⟨.nil, by simp, by simp, by simp⟩
  obtain ⟨order, horder⟩ := hstart.exists_orders
  exact ⟨order, horder.map_get, horder.sorted, fun p => (horder.mem_iff p).2 (.inr (Nat.zero_le p))⟩

end HornOntology
