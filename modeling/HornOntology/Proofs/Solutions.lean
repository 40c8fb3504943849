import HornOntology.Proofs.Plan

set_option autoImplicit false

/-! # The solutions of a body

What matching a body gives back, as a list. A solution extends the seed to exactly the variables
of the class and property atoms, makes each of these atoms a stored fact and each comparison true
(`Matcher.Solves`). If every comparison finds its variables bound, the list holds all solutions and
nothing else (`mem_solve_iff`), in the order of the positions of the facts they match
(`pairwise_positions_solve`), so that none occurs twice. If some comparison does not, the list is
empty. -/

namespace HornOntology

/-! ## Extending a binding -/

namespace Binding

/-- One binding has all slots of the other, with the same entities. -/
def Extends (b seed : Binding) : Prop :=
  ∀ v id, seed.get? v = some id → b.get? v = some id

theorem Extends.refl (b : Binding) : b.Extends b := fun _ _ h => h

theorem Extends.trans {b c d : Binding} (hbc : b.Extends c) (hcd : c.Extends d) : b.Extends d :=
  fun v id h => hbc v id (hcd v id h)

theorem Extends.resolve? {b seed : Binding} (h : b.Extends seed) {t : Term EntityId}
    {id : EntityId} (ht : seed.resolve? t = some id) : b.resolve? t = some id := by
  cases t with
  | const c => exact ht
  | var v => exact h v id ht

theorem Extends.ground {b seed : Binding} (h : b.Extends seed) {atom : Atom EntityId} {f : Fact}
    (hf : atom.ground seed = some f) : atom.ground b = some f := by
  cases atom with
  | member cls arg =>
    obtain ⟨i, hi, hrest⟩ := Option.bind_eq_some_iff.1 hf
    exact Option.bind_eq_some_iff.2 ⟨i, h.resolve? hi, hrest⟩
  | link property subject object =>
    obtain ⟨s, hs, hrest⟩ := Option.bind_eq_some_iff.1 hf
    obtain ⟨o, ho, hrest⟩ := Option.bind_eq_some_iff.1 hrest
    exact Option.bind_eq_some_iff.2
      ⟨s, h.resolve? hs, Option.bind_eq_some_iff.2 ⟨o, h.resolve? ho, hrest⟩⟩
  | builtin op args => simp [Atom.ground] at hf

/-- A comparison that is true stays true. -/
theorem Extends.evaluate {b seed : Binding} (h : b.Extends seed) {op : Builtin}
    {args : List (Term EntityId)} {registry : Registry}
    (htrue : op.evaluate args seed registry = .ok true) :
    op.evaluate args b registry = .ok true := by
  rw [Builtin.evaluate_eq_ok_true_iff] at htrue ⊢
  obtain ⟨left, right, hvalues, hholds⟩ := htrue
  refine ⟨left, right, ?_, hholds⟩
  rw [Builtin.values_eq_ok_iff] at hvalues ⊢
  -- every argument resolves in the seed, and so to the same entity
  rw [← hvalues]
  refine List.map_congr_left (fun t ht => ?_)
  have hsome : seed.resolve? t ∈ [left, right].map some := hvalues ▸ List.mem_map_of_mem ht
  obtain ⟨id, -, hid⟩ := List.mem_map.1 hsome
  rw [← hid]
  exact h.resolve? hid.symm

theorem unify_extends {b b' : Binding} {t : Term EntityId} {id : EntityId}
    (h : b.unify t id = some b') : b'.Extends b ∧ b'.resolve? t = some id := by
  cases t with
  | const c =>
    simp only [unify] at h
    split at h
    · next hc =>
      cases h
      exact ⟨.refl b, congrArg some hc⟩
    · cases h
  | var v =>
    simp only [unify] at h
    split at h
    · next bound hv =>
      split at h
      · next hbound =>
        cases h
        exact ⟨.refl b, hbound ▸ hv⟩
      · cases h
    · next hv =>
      cases h
      refine ⟨fun w x hw => ?_, ?_⟩
      · have hne : v ≠ w := fun e => by simp [e, hw] at hv
        rw [get?_insert, if_neg hne, hw]
      · rw [resolve?, get?_insert, if_pos rfl]

theorem isBound_iff_mem_map_fst (b : Binding) (v : Variable) :
    b.isBound v = true ↔ v ∈ b.slots.map Prod.fst := by
  have hfind (slots : List (Variable × EntityId)) :
      (find v slots).isSome = true ↔ v ∈ slots.map Prod.fst := by
    induction slots with
    | nil => simp [find]
    | cons slot rest ih =>
      by_cases hv : slot.1 = v
      · simp [find, hv]
      · simp [find, hv, ih, Ne.symm hv]
  exact hfind b.slots

/-- Two bindings of the same variables are equal if one valuation agrees with both. -/
theorem eq_of_agrees {b c : Binding}
    (hbound : ∀ v, b.isBound v = true ↔ c.isBound v = true) {σ : Valuation} (hb : b.Agrees σ)
    (hc : c.Agrees σ) : b = c := by
  refine ext_get (fun v => ?_)
  cases hv : b.get? v with
  | some id =>
    obtain ⟨id', hv'⟩ := isBound_iff.1 ((hbound v).1 (isBound_iff.2 ⟨id, hv⟩))
    rw [hv', ← hb v id hv, ← hc v id' hv']
  | none =>
    cases hv' : c.get? v with
    | none => rfl
    | some id' =>
      obtain ⟨id, hid⟩ := isBound_iff.1 ((hbound v).2 (isBound_iff.2 ⟨id', hv'⟩))
      rw [hv] at hid
      cases hid

end Binding

/-- Unifying an atom with a fact of its predicate makes it state the fact. -/
theorem Atom.unify_extends {b b' : Binding} {atom : Atom EntityId} {f : Fact}
    (h : atom.unify b f = some b') :
    b'.Extends b ∧ (atom.predicate? = some f.predicate → atom.ground b' = some f) := by
  cases atom with
  | builtin op args => simp [Atom.unify] at h
  | member cls arg =>
    cases f with
    | link p s o => simp [Atom.unify] at h
    | member i c =>
      obtain ⟨hext, hi⟩ := Binding.unify_extends h
      refine ⟨hext, fun hpred => ?_⟩
      cases hpred
      simp [Atom.ground, hi, Fact.predicate]
  | link property subject object =>
    cases f with
    | member i c => simp [Atom.unify] at h
    | link p s o =>
      obtain ⟨b₁, hsubject, hobject⟩ := Option.bind_eq_some_iff.1 h
      obtain ⟨hext₁, hs⟩ := Binding.unify_extends hsubject
      obtain ⟨hext, ho⟩ := Binding.unify_extends hobject
      refine ⟨hext.trans hext₁, fun hpred => ?_⟩
      cases hpred
      simp [Atom.ground, hext.resolve? hs, ho, Fact.predicate]

/-! ## The facts that an atom matches -/

namespace Matcher

variable (m : Matcher)

/-- The position of a fact in the order of assertion. -/
def position (f : Fact) : Nat := m.store.toList.idxOf f

/-- Matching a class or property atom gives one binding for some of the stored facts with its
    predicate, in their order. -/
theorem exists_matchAtom_eq {atom : Atom EntityId} (hrel : atom.isRelational = true)
    (b : Binding) :
    ∃ facts : List Fact, facts.Sublist m.store.toList ∧
      (∀ f ∈ facts, atom.predicate? = some f.predicate) ∧
      m.matchAtom atom b = facts.filterMap (atom.unify b) := by
  cases atom with
  | builtin op args => simp [Atom.isRelational] at hrel
  | member cls arg =>
    refine ⟨_, ?_, fun f hf => ?_, rfl⟩
    · rw [FactStore.select_eq_filter]
      exact List.filter_sublist
    · rw [FactStore.select_eq_filter, List.mem_filter] at hf
      cases f with
      | link p s o => simp [FactPattern.accepts] at hf
      | member i c =>
        simp only [FactPattern.accepts, Bool.and_eq_true, slot_some_iff] at hf
        rw [Atom.predicate?, hf.2.1, Fact.predicate]
  | link property subject object =>
    refine ⟨_, ?_, fun f hf => ?_, rfl⟩
    · rw [FactStore.select_eq_filter]
      exact List.filter_sublist
    · rw [FactStore.select_eq_filter, List.mem_filter] at hf
      cases f with
      | member i c => simp [FactPattern.accepts] at hf
      | link p s o =>
        simp only [FactPattern.accepts, Bool.and_eq_true, slot_some_iff] at hf
        rw [Atom.predicate?, hf.2.1.1, Fact.predicate]

theorem exists_ground_of_mem_matchAtom {atom : Atom EntityId} (hrel : atom.isRelational = true)
    {b b' : Binding} (h : b' ∈ m.matchAtom atom b) :
    b'.Extends b ∧ ∃ f ∈ m.store.toList, atom.ground b' = some f := by
  obtain ⟨facts, hsub, hpred, heq⟩ := m.exists_matchAtom_eq hrel b
  rw [heq] at h
  obtain ⟨f, hf, hunify⟩ := List.mem_filterMap.1 h
  obtain ⟨hext, hground⟩ := Atom.unify_extends hunify
  exact ⟨hext, f, hsub.mem hf, hground (hpred f hf)⟩

/-- The matches of an atom come in the order of the facts it states under them. -/
theorem pairwise_matchAtom {atom : Atom EntityId} (hrel : atom.isRelational = true)
    (b : Binding) :
    (m.matchAtom atom b).Pairwise fun b₁ b₂ => ∀ f₁ f₂, atom.ground b₁ = some f₁ →
      atom.ground b₂ = some f₂ → m.position f₁ < m.position f₂ := by
  obtain ⟨facts, hsub, hpred, heq⟩ := m.exists_matchAtom_eq hrel b
  have hordered : m.store.toList.Pairwise fun f₁ f₂ => m.position f₁ < m.position f₂ := by
    refine List.pairwise_iff_getElem.2 (fun i j hi hj hij => ?_)
    have hnodup : m.store.toList.Nodup := m.store.nodup
    rwa [position, position, hnodup.idxOf_getElem i hi, hnodup.idxOf_getElem j hj]
  rw [heq, List.pairwise_filterMap]
  refine (hordered.sublist hsub).imp_of_mem ?_
  intro f₁ f₂ hf₁ hf₂ hlt b₁ hb₁ b₂ hb₂ g₁ g₂ hg₁ hg₂
  rw [(Atom.unify_extends hb₁).2 (hpred f₁ hf₁)] at hg₁
  rw [(Atom.unify_extends hb₂).2 (hpred f₂ hf₂)] at hg₂
  cases hg₁
  cases hg₂
  exact hlt

end Matcher

/-! ## Bodies whose comparisons can run -/

/-- Each variable of a comparison is bound by the seed or by an earlier class or property atom. -/
def ComparesBound (seed : Binding) (body : List (Atom EntityId)) : Prop :=
  ∀ before atom after, body = before ++ atom :: after → atom.isRelational = false →
    ∀ v ∈ atom.vars, seed.isBound v = true ∨ v ∈ boundVariables before

theorem boundVariables_cons (atom : Atom EntityId) (body : List (Atom EntityId)) :
    boundVariables (atom :: body) =
      (if atom.isRelational then atom.vars else []) ++ boundVariables body := by
  cases hrel : atom.isRelational <;> simp [boundVariables, hrel]

theorem inOrder_iff_forall_split {bound : List Variable} {body : List (Atom EntityId)} :
    InOrder bound body ↔ ∀ before atom after, body = before ++ atom :: after →
      atom.isRelational = false → ∀ v ∈ atom.vars, v ∈ bound ∨ v ∈ boundVariables before := by
  induction body generalizing bound with
  | nil => simp [InOrder]
  | cons first rest ih =>
    have hfirst : InOrder bound (first :: rest) ↔
        (first.isRelational = false → ∀ v ∈ first.vars, v ∈ bound) ∧
          InOrder (bound ++ if first.isRelational then first.vars else []) rest := by
      cases hrel : first.isRelational <;> simp [InOrder, hrel]
    rw [hfirst, ih]
    constructor
    · rintro ⟨hhead, htail⟩ before atom after hsplit hcompare v hv
      rcases List.cons_eq_append_iff.1 hsplit with ⟨rfl, hcons⟩ | ⟨before', rfl, hrest⟩
      · cases hcons
        exact Or.inl (hhead hcompare v hv)
      · have hlater := htail before' atom after hrest hcompare v hv
        rwa [List.mem_append, or_assoc, ← List.mem_append, ← boundVariables_cons] at hlater
    · intro h
      refine ⟨fun hcompare v hv => ?_, fun before atom after hrest hcompare v hv => ?_⟩
      · simpa [boundVariables] using h [] first rest rfl hcompare v hv
      · have hlater := h (first :: before) atom after (by rw [hrest]; rfl) hcompare v hv
        rwa [boundVariables_cons, List.mem_append, ← or_assoc, ← List.mem_append] at hlater

theorem comparesBound_iff_inOrder {seed : Binding} {bound : List Variable}
    (hbound : ∀ v, seed.isBound v = true ↔ v ∈ bound) (body : List (Atom EntityId)) :
    ComparesBound seed body ↔ InOrder bound body := by
  simp only [inOrder_iff_forall_split, ComparesBound, hbound]

namespace Matcher

variable (m : Matcher)

/-! ## The solutions -/

/-- The binding makes the atom a stored fact, or a true comparison. -/
def Satisfies (b : Binding) (atom : Atom EntityId) : Prop :=
  match atom with
  | .builtin op args => op.evaluate args b m.registry = .ok true
  | atom => ∃ f ∈ m.store.toList, atom.ground b = some f

theorem satisfies_iff_of_isRelational {b : Binding} {atom : Atom EntityId}
    (hrel : atom.isRelational = true) :
    m.Satisfies b atom ↔ ∃ f ∈ m.store.toList, atom.ground b = some f := by
  cases atom with
  | builtin op args => simp [Atom.isRelational] at hrel
  | member cls arg => exact Iff.rfl
  | link property subject object => exact Iff.rfl

/-- The binding extends the seed to the variables of the class and property atoms, and satisfies
    the whole body. -/
structure Solves (body : List (Atom EntityId)) (seed b : Binding) : Prop where
  extends_seed : b.Extends seed
  isBound_iff : ∀ v, b.isBound v = true ↔ seed.isBound v = true ∨ v ∈ boundVariables body
  satisfies : ∀ atom ∈ body, m.Satisfies b atom

theorem satisfies_of_mem_matchAtom {atom : Atom EntityId} {b b' : Binding}
    (h : b' ∈ m.matchAtom atom b) : b'.Extends b ∧ m.Satisfies b' atom := by
  by_cases hrel : atom.isRelational = true
  · obtain ⟨hext, hground⟩ := m.exists_ground_of_mem_matchAtom hrel h
    exact ⟨hext, (m.satisfies_iff_of_isRelational hrel).2 hground⟩
  · cases atom with
    | builtin op args =>
      obtain ⟨rfl, htrue⟩ := (m.mem_filter_iff op args b b').1 h
      exact ⟨.refl b', htrue⟩
    | member cls arg => exact absurd rfl hrel
    | link property subject object => exact absurd rfl hrel

theorem Satisfies.mono {b b' : Binding} {atom : Atom EntityId} (h : m.Satisfies b atom)
    (hext : b'.Extends b) : m.Satisfies b' atom := by
  by_cases hrel : atom.isRelational = true
  · obtain ⟨f, hf, hground⟩ := (m.satisfies_iff_of_isRelational hrel).1 h
    exact (m.satisfies_iff_of_isRelational hrel).2 ⟨f, hf, hext.ground hground⟩
  · cases atom with
    | builtin op args => exact hext.evaluate h
    | member cls arg => exact absurd rfl hrel
    | link property subject object => exact absurd rfl hrel

theorem satisfies_of_mem_solve {body : List (Atom EntityId)} {seed b : Binding}
    (h : b ∈ m.solve body seed) :
    b.Extends seed ∧ ∀ atom ∈ body, m.Satisfies b atom := by
  induction body generalizing seed with
  | nil =>
    simp only [solve, List.mem_singleton] at h
    subst h
    exact ⟨.refl b, by simp⟩
  | cons atom rest ih =>
    simp only [solve, List.mem_flatMap] at h
    obtain ⟨b₁, hb₁, hb⟩ := h
    obtain ⟨hext₁, hatom⟩ := m.satisfies_of_mem_matchAtom hb₁
    obtain ⟨hext, hrest⟩ := ih hb
    exact ⟨hext.trans hext₁, List.forall_mem_cons.2 ⟨Satisfies.mono m hatom hext, hrest⟩⟩


theorem holdsIn_of_satisfies {b : Binding} {σ : Valuation} (hag : b.Agrees σ)
    {atom : Atom EntityId} (h : m.Satisfies b atom) :
    atom.HoldsIn m.registry m.store.factSet σ := by
  by_cases hrel : atom.isRelational = true
  · obtain ⟨f, hf, hground⟩ := (m.satisfies_iff_of_isRelational hrel).1 h
    exact (Atom.holdsIn_of_factAt (hag.factAt_of_ground hground)).2 hf
  · cases atom with
    | builtin op args => exact ((hag.evaluate_eq_ok_true_iff op args m.registry _).1 h).1
    | member cls arg => exact absurd rfl hrel
    | link property subject object => exact absurd rfl hrel

theorem mem_solve_iff {body : List (Atom EntityId)} {seed : Binding}
    (hbound : ComparesBound seed body) (b : Binding) :
    b ∈ m.solve body seed ↔ m.Solves body seed b := by
  constructor
  · intro h
    obtain ⟨hext, hsat⟩ := m.satisfies_of_mem_solve h
    exact ⟨hext, m.isBound_of_mem_solve h, hsat⟩
  · intro h
    obtain ⟨σ, hag⟩ := b.exists_agrees
    have hseed : seed.Agrees σ := fun v id hv => hag v id (h.extends_seed v id hv)
    have horder := (comparesBound_iff_inOrder seed.isBound_iff_mem_map_fst body).1 hbound
    have hholds : ∀ atom ∈ body, atom.HoldsIn m.registry m.store.factSet σ :=
      fun atom hatom => m.holdsIn_of_satisfies hag (h.satisfies atom hatom)
    obtain ⟨b', hb', hag'⟩ := (m.exists_mem_solve_iff body seed.isBound_iff_mem_map_fst σ).2
      ⟨hseed, horder, hholds⟩
    -- the solution that is found binds the same variables to the same entities
    have heq : b' = b := Binding.eq_of_agrees
      (fun v => (m.isBound_of_mem_solve hb' v).trans (h.isBound_iff v).symm) hag' hag
    exact heq ▸ hb'

theorem solve_eq_nil {body : List (Atom EntityId)} {seed : Binding}
    (h : ¬ ComparesBound seed body) : m.solve body seed = [] := by
  refine List.eq_nil_iff_forall_not_mem.2 (fun b hb => h ?_)
  obtain ⟨σ, hag⟩ := b.exists_agrees
  have hfound := (m.exists_mem_solve_iff body seed.isBound_iff_mem_map_fst σ).1 ⟨b, hb, hag⟩
  exact (comparesBound_iff_inOrder seed.isBound_iff_mem_map_fst body).2 hfound.2.1

/-- The positions of the facts that the class and property atoms state, from left to right. -/
def positions (body : List (Atom EntityId)) (b : Binding) : List Nat :=
  (body.filterMap (Atom.ground b)).map m.position

theorem pairwise_positions_solve (body : List (Atom EntityId)) (seed : Binding) :
    (m.solve body seed).Pairwise fun b b' => m.positions body b < m.positions body b' := by
  induction body generalizing seed with
  | nil => exact List.pairwise_singleton _ _
  | cons atom rest ih =>
    rw [solve, List.pairwise_flatMap]
    by_cases hrel : atom.isRelational = true
    · refine ⟨fun b₁ hb₁ => ?_, (m.pairwise_matchAtom hrel seed).imp_of_mem ?_⟩
      · -- the solutions that begin with one match all state the same first fact
        obtain ⟨-, f, -, hground⟩ := m.exists_ground_of_mem_matchAtom hrel hb₁
        refine (ih b₁).imp_of_mem (fun {b b'} hb hb' hlt => ?_)
        have hfirst := (m.satisfies_of_mem_solve hb).1.ground hground
        have hfirst' := (m.satisfies_of_mem_solve hb').1.ground hground
        simp only [positions, List.filterMap_cons_some hfirst, List.filterMap_cons_some hfirst',
          List.map_cons]
        exact List.Lex.cons hlt
      · intro b₁ b₂ hb₁ hb₂ hlt b hb b' hb'
        obtain ⟨-, f₁, -, hground₁⟩ := m.exists_ground_of_mem_matchAtom hrel hb₁
        obtain ⟨-, f₂, -, hground₂⟩ := m.exists_ground_of_mem_matchAtom hrel hb₂
        have hfirst := (m.satisfies_of_mem_solve hb).1.ground hground₁
        have hfirst' := (m.satisfies_of_mem_solve hb').1.ground hground₂
        simp only [positions, List.filterMap_cons_some hfirst, List.filterMap_cons_some hfirst',
          List.map_cons]
        exact List.Lex.rel (hlt f₁ f₂ hground₁ hground₂)
    · cases atom with
      | member cls arg => exact absurd rfl hrel
      | link property subject object => exact absurd rfl hrel
      | builtin op args =>
        -- at most one binding passes the comparison, and it states no fact
        refine ⟨fun b₁ _ => ih b₁, ?_⟩
        simp only [matchAtom, filter]
        split
        · exact List.pairwise_singleton _ _
        · exact List.Pairwise.nil
        · exact List.Pairwise.nil

/-- **The solutions of a body.** If each variable of a comparison is bound by the seed or by an
    earlier class or property atom, matching gives back exactly the solutions, each once, in the
    lexicographic order of the positions of the facts that the class and property atoms match. If
    not, it gives back nothing. -/
theorem solve_exact (body : List (Atom EntityId)) (seed : Binding) :
    (ComparesBound seed body →
      (∀ b, b ∈ m.solve body seed ↔ m.Solves body seed b) ∧ (m.solve body seed).Nodup ∧
        (m.solve body seed).Pairwise fun b b' => m.positions body b < m.positions body b') ∧
    (¬ ComparesBound seed body → m.solve body seed = []) := by
  have hordered := m.pairwise_positions_solve body seed
  have hdistinct : (m.solve body seed).Nodup := by
    refine List.Pairwise.imp ?_ hordered
    rintro b _ hlt rfl
    exact List.lt_irrefl _ hlt
  exact ⟨fun hbound => ⟨fun b => m.mem_solve_iff hbound b, hdistinct, hordered⟩, m.solve_eq_nil⟩

end Matcher

/-- Two links of a chain that lead from one entity to another, in a body and with the comparison
    before its second variable is bound. -/
theorem Matcher.solve_exact_chain :
    let p : EntityId := ⟨1, by decide⟩
    let m : Matcher := ⟨chainStore, .empty⟩
    let links := [Atom.link p (.var ⟨"x"⟩) (.var ⟨"y"⟩), .link p (.var ⟨"y"⟩) (.var ⟨"z"⟩)]
    let compare := Atom.builtin .notEqual [.var ⟨"x"⟩, .var ⟨"z"⟩]
    (∀ b, b ∈ m.solve (links ++ [compare]) .empty ↔ m.Solves (links ++ [compare]) .empty b) ∧
      m.solve (compare :: links) .empty = [] := by
  intro p m links compare
  have hbound (body : List (Atom EntityId)) : ComparesBound .empty body ↔ InOrder [] body :=
    comparesBound_iff_inOrder (by simp) body
  have horder : InOrder [] (links ++ [compare]) := by
    simp [links, compare, InOrder, Atom.isRelational, Atom.vars, Atom.terms, Term.var?]
  have hearly : ¬ InOrder [] (compare :: links) := fun h =>
    absurd (h.1 ⟨"x"⟩ (by decide)) (by simp)
  exact ⟨((m.solve_exact _ .empty).1 ((hbound _).2 horder)).1,
    (m.solve_exact _ .empty).2 (fun h => hearly ((hbound _).1 h))⟩

end HornOntology
