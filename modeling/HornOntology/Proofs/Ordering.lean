import HornOntology.Builtin
import HornOntology.Proofs.Interning

set_option autoImplicit false

/-! # The laws of the comparisons

Two entities are compared by the numbers that their local names write, and by the local names
themselves if one of them writes no finite number. Finite numbers are always ordered, so there is
an order in any case (`compareNames_eq`). Which of the two it is changes from pair to pair, so the
order of names is not transitive: `10` is below `1a`, `1a` is below `9`, and `9` is below `10`.

Two things hold all the same. Any two names compare one way or the other, and the opposite way when
they are exchanged (`nameOrder_swap`), so the six comparisons never contradict each other on a
pair. And among numerals alone, or among other names alone, the order is one that is transitive
(`nameOrder_trans`). -/

namespace HornOntology

/-- The finite number that the local part of a name writes. -/
def numeral? (name : String) : Option Binary64 :=
  Decimal.parse? (localName name).toList >>= Binary64.ofDecimal?

namespace Builtin

/-! ## The order of names -/

/-- By value if both names write finite numbers, and by code points otherwise. -/
def nameOrder (a b : String) : Ordering :=
  match numeral? a, numeral? b with
  | some x, some y => compare x.units y.units
  | _, _ => compare (HornOntology.localName a) (HornOntology.localName b)

/-- What is left of the doubles when infinities and what is no number are left out. -/
theorem finite?_localName (name : String) :
    finite? (HornOntology.localName name) = (numeral? name).map Double.finite := by
  unfold finite? Double.parse? numeral?
  cases Decimal.parse? (HornOntology.localName name).toList with
  | none =>
    dsimp only [Double.ofWord?]
    split
    · rfl
    · split <;> rfl
  | some d =>
    show (some (Double.ofDecimal d)).filter Double.isFinite = (Binary64.ofDecimal? d).map _
    unfold Double.ofDecimal
    cases Binary64.ofDecimal? d <;> rfl

/-- Any two names have an order. -/
theorem compareNames_eq (a b : String) : compareNames a b = some (nameOrder a b) := by
  unfold nameOrder
  -- not by the equation of `compareNames`: stating it makes Lean try to read both names
  delta compareNames
  dsimp only
  rw [finite?_localName, finite?_localName]
  cases numeral? a with
  | none => rfl
  | some x => cases numeral? b <;> rfl

theorem nameOrder_of_numerals {a b : String} {x y : Binary64} (ha : numeral? a = some x)
    (hb : numeral? b = some y) : nameOrder a b = compare x.units y.units := by
  delta nameOrder
  rw [ha, hb]

theorem nameOrder_of_not_numeral {a b : String} (h : numeral? a = none ∨ numeral? b = none) :
    nameOrder a b = compare (HornOntology.localName a) (HornOntology.localName b) := by
  delta nameOrder
  rcases h with h | h
  · rw [h]
  · rw [h]
    cases numeral? a <;> rfl

/-- A pair is compared in the same way in both directions, whichever way that is. -/
theorem nameOrder_swap (a b : String) : nameOrder a b = (nameOrder b a).swap := by
  cases ha : numeral? a with
  | none =>
    rw [nameOrder_of_not_numeral (.inl ha), nameOrder_of_not_numeral (.inr ha)]
    exact Std.OrientedOrd.eq_swap
  | some x =>
    cases hb : numeral? b with
    | none =>
      rw [nameOrder_of_not_numeral (.inr hb), nameOrder_of_not_numeral (.inl hb)]
      exact Std.OrientedOrd.eq_swap
    | some y =>
      rw [nameOrder_of_numerals ha hb, nameOrder_of_numerals hb ha]
      exact Std.OrientedOrd.eq_swap

instance : Std.OrientedCmp nameOrder := ⟨nameOrder_swap _ _⟩

/-- Names that all write numbers, or of which none does. -/
def OneSort (names : List String) : Prop :=
  (∀ name ∈ names, (numeral? name).isSome) ∨ ∀ name ∈ names, numeral? name = none

/-- Names of one sort are compared by a key of theirs, a number or a text. -/
theorem nameOrder_trans {a b c : String} (h : OneSort [a, b, c]) :
    ((nameOrder a b).isLE → (nameOrder b c).isLE → (nameOrder a c).isLE) ∧
      (nameOrder a b = .lt → nameOrder b c = .lt → nameOrder a c = .lt) := by
  rcases h with h | h
  · simp only [List.forall_mem_cons, Option.isSome_iff_exists] at h
    obtain ⟨⟨x, hx⟩, ⟨y, hy⟩, ⟨z, hz⟩, -⟩ := h
    rw [nameOrder_of_numerals hx hy, nameOrder_of_numerals hy hz,
      nameOrder_of_numerals hx hz]
    exact ⟨Std.TransCmp.isLE_trans, Std.TransCmp.lt_trans⟩
  · simp only [List.forall_mem_cons] at h
    obtain ⟨ha, hb, -⟩ := h
    rw [nameOrder_of_not_numeral (.inl ha), nameOrder_of_not_numeral (.inl hb),
      nameOrder_of_not_numeral (.inl ha)]
    exact ⟨Std.TransCmp.isLE_trans, Std.TransCmp.lt_trans⟩

/-- Names of both sorts can go round in a circle. -/
example : compareNames "10" "1a" = some .lt ∧ compareNames "1a" "9" = some .lt ∧
    compareNames "9" "10" = some .lt := by decide +kernel

/-! ## The six comparisons -/

/-- The verdicts of the six comparisons on two entities fit together. -/
structure Coherent (judge : Builtin → EntityId → EntityId → Bool) : Prop where
  /-- One entity is below the other, or each is at most the other. -/
  one_of_three : ∀ a b, [judge lessThan a b, judge greaterThan a b,
    judge lessThanOrEqual a b && judge greaterThanOrEqual a b].count true = 1
  lessThanOrEqual_eq : ∀ a b, judge lessThanOrEqual a b = !judge greaterThan a b
  greaterThanOrEqual_eq : ∀ a b, judge greaterThanOrEqual a b = !judge lessThan a b
  lessThan_eq : ∀ a b, judge lessThan a b = judge greaterThan b a
  equal_iff : ∀ a b, judge equal a b = true ↔ a = b
  of_equal : ∀ a b, judge equal a b = true →
    judge lessThanOrEqual a b = true ∧ judge greaterThanOrEqual a b = true
  notEqual_eq : ∀ a b, judge notEqual a b = !judge equal a b

theorem evaluate_const (op : Builtin) (a b : EntityId) (binding : Binding) (registry : Registry) :
    op.evaluate [.const a, .const b] binding registry = .ok (op.holds registry a b) := rfl

/-- The four comparisons of order go by the order of the names. -/
theorem holds_of_order {op : Builtin} (hequal : op ≠ equal) (hnotEqual : op ≠ notEqual)
    (registry : Registry) (a b : EntityId) :
    op.holds registry a b = op.allows (nameOrder (registry.name a) (registry.name b)) := by
  have hany : op.holds registry a b =
      (compareNames (registry.name a) (registry.name b)).any op.allows := by
    cases op with
    | equal => exact absurd rfl hequal
    | notEqual => exact absurd rfl hnotEqual
    | lessThan => rfl
    | lessThanOrEqual => rfl
    | greaterThan => rfl
    | greaterThanOrEqual => rfl
  rw [hany, compareNames_eq, Option.any_some]

theorem coherent_holds (registry : Registry) :
    Coherent fun op a b => op.holds registry a b where
  one_of_three a b := by
    simp only [holds_of_order, ne_eq, reduceCtorEq, not_false_eq_true, allows]
    cases nameOrder (registry.name a) (registry.name b) <;> rfl
  lessThanOrEqual_eq a b := by
    simp only [holds_of_order, ne_eq, reduceCtorEq, not_false_eq_true, allows]
    cases nameOrder (registry.name a) (registry.name b) <;> rfl
  greaterThanOrEqual_eq a b := by
    simp only [holds_of_order, ne_eq, reduceCtorEq, not_false_eq_true, allows]
    cases nameOrder (registry.name a) (registry.name b) <;> rfl
  lessThan_eq a b := by
    simp only [holds_of_order, ne_eq, reduceCtorEq, not_false_eq_true, allows]
    rw [nameOrder_swap (registry.name b)]
    cases nameOrder (registry.name a) (registry.name b) <;> rfl
  equal_iff a b := decide_eq_true_iff
  of_equal a b h := by
    obtain rfl : a = b := of_decide_eq_true h
    simp only [holds_of_order, ne_eq, reduceCtorEq, not_false_eq_true, allows,
      Std.ReflCmp.compare_self]
    exact ⟨rfl, rfl⟩
  notEqual_eq a b := decide_not

/-- **The comparisons agree with each other.** Whatever is registered, any two constants can be
    compared; on each pair the six verdicts fit together; and on entities whose local names all
    write finite numbers, or of which none does, both orders are transitive. -/
theorem evaluate_coherent (registry : Registry) (binding : Binding) :
    ∃ judge : Builtin → EntityId → EntityId → Bool,
      (∀ (op : Builtin) (a b : EntityId),
        op.evaluate [.const a, .const b] binding registry = .ok (judge op a b)) ∧
      Coherent judge ∧
      ∀ a b c, OneSort ([a, b, c].map registry.name) →
        (judge lessThanOrEqual a b → judge lessThanOrEqual b c → judge lessThanOrEqual a c) ∧
        (judge lessThan a b → judge lessThan b c → judge lessThan a c) := by
  refine ⟨fun op a b => op.holds registry a b,
    fun op a b => evaluate_const op a b binding registry, coherent_holds registry, ?_⟩
  intro a b c hsort
  obtain ⟨hle, hlt⟩ := nameOrder_trans hsort
  simp only [holds_of_order, ne_eq, reduceCtorEq, not_false_eq_true, allows,
    Ordering.isLT_iff_eq_lt]
  exact ⟨hle, hlt⟩

namespace Measures

/-! Three individuals with numbers for names, and identifiers that nobody has. -/

def names : List String := ["9", "http://n.org#10.0", "1e3"]

def registry : Registry := (Registry.empty.internAll (names.map (·, .individual))).2

def nine : EntityId := .nth 0

def ten : EntityId := .nth 1

def thousand : EntityId := .nth 2

theorem map_name_registry : [nine, ten, thousand].map registry.name = names := by
  obtain ⟨hwf, hdeclared⟩ := Registry.wellFormed_empty.internAll_new .individual names
    (by decide) (by simp [Registry.empty, Registry.all]) (by decide)
  replace hdeclared : registry.declared = names.map (·, .individual) := hdeclared
  have hname (id : EntityId) (name : String)
      (hplace : (names.map (·, EntityKind.individual))[id.toNat - 1]? = some (name, .individual)) :
      registry.name id = name := by
    rw [← hdeclared] at hplace
    exact Registry.name_eq (hwf.get?_of_declared hplace)
  simp only [List.map_cons, List.map_nil, hname nine "9" rfl, hname thousand "1e3" rfl,
    hname ten "http://n.org#10.0" rfl, names]

end Measures

/-- Nine is below ten and ten below a thousand, so nine is below a thousand, although its text is
    above that of the thousand. Two identifiers without a name are ordered as `ent:7` and
    `ent:8`. -/
theorem evaluate_coherent_measures :
    OneSort ([Measures.nine, Measures.ten, Measures.thousand].map Measures.registry.name) ∧
      lessThan.evaluate [.const Measures.nine, .const Measures.thousand] .empty Measures.registry =
        .ok true ∧
      greaterThan.evaluate [.const (.nth 7), .const (.nth 6)] .empty .empty =
        lessThan.evaluate [.const (.nth 6), .const (.nth 7)] .empty .empty := by
  have hnames := Measures.map_name_registry
  have hsort : OneSort Measures.names := .inl (by decide +kernel)
  obtain ⟨judge, hjudge, -, htrans⟩ := evaluate_coherent Measures.registry .empty
  obtain ⟨judge', hjudge', hcoherent, -⟩ := evaluate_coherent .empty .empty
  refine ⟨hnames ▸ hsort, ?_, ?_⟩
  · have hcompare (a b : EntityId)
        (h : nameOrder (Measures.registry.name a) (Measures.registry.name b) = .lt) :
        judge lessThan a b = true := by
      have hverdict := (evaluate_const lessThan a b .empty Measures.registry).symm.trans
        (hjudge lessThan a b)
      rw [← Except.ok.inj hverdict, holds_of_order (by decide) (by decide), h]
      rfl
    simp only [List.map_cons, List.map_nil, Measures.names, List.cons.injEq, and_true] at hnames
    obtain ⟨hnine, hten, hthousand⟩ := hnames
    rw [hjudge, (htrans _ _ _ (Measures.map_name_registry ▸ hsort)).2 (hcompare _ _ ?_)
      (hcompare _ _ ?_)]
    · rw [hnine, hten]
      decide +kernel
    · rw [hten, hthousand]
      decide +kernel
  · rw [hjudge', hjudge', hcoherent.lessThan_eq]

end Builtin

end HornOntology
