import HornOntology.Matching
import HornOntology.Proofs.Model

set_option autoImplicit false

/-! # What matching finds

Matching works with bindings, which know the entities of some variables; the meaning of atoms is
given by valuations, which know all. A valuation `Agrees` with a binding that it extends. Each
operation of the matcher is described by two facts: which variables the bindings it gives back
bind, and which valuations agree with one of them. For a whole body the second reads
(`exists_mem_solve_iff`): some solution agrees with a valuation exactly if the seed does, every
atom holds, and no comparison comes before its variables are bound. -/

namespace HornOntology

/-! ## Valuations that extend a binding -/

namespace Binding

/-- The valuation gives every bound variable its entity. -/
def Agrees (b : Binding) (σ : Valuation) : Prop :=
  ∀ v id, b.get? v = some id → σ v = id

theorem exists_agrees (b : Binding) : ∃ σ, b.Agrees σ := by
  refine ⟨fun v => (b.get? v).getD ⟨1, by decide⟩, fun v id h => ?_⟩
  simp [h]

theorem empty_agrees (σ : Valuation) : empty.Agrees σ := by
  intro v id h
  exact absurd h (by simp [empty, get?, find])

@[simp] theorem isBound_empty (v : Variable) : empty.isBound v = false := rfl

theorem isBound_iff {b : Binding} {v : Variable} :
    b.isBound v = true ↔ ∃ id, b.get? v = some id := Option.isSome_iff_exists

theorem isBound_insert (b : Binding) (v w : Variable) (id : EntityId) :
    (b.insert v id).isBound w = true ↔ b.isBound w = true ∨ v = w := by
  simp only [isBound, get?_insert]
  by_cases h : v = w
  · simp [h]
  · simp [h]

theorem agrees_insert_iff {b : Binding} {v : Variable} (h : b.get? v = none) (id : EntityId)
    (σ : Valuation) : (b.insert v id).Agrees σ ↔ b.Agrees σ ∧ σ v = id := by
  constructor
  · intro hag
    refine ⟨fun w x hw => hag w x ?_, hag v id ?_⟩
    · have hne : v ≠ w := fun e => by simp [e, hw] at h
      rw [get?_insert, if_neg hne, hw]
    · rw [get?_insert, if_pos rfl]
  · rintro ⟨hag, hv⟩ w x hw
    rw [get?_insert] at hw
    split at hw
    · next e =>
      cases hw
      rw [← e, hv]
    · exact hag w x hw

theorem Agrees.resolve? {b : Binding} {σ : Valuation} (h : b.Agrees σ) {t : Term EntityId}
    {id : EntityId} (ht : b.resolve? t = some id) : t.valueAt σ = id := by
  cases t with
  | const c =>
    simp only [Binding.resolve?, Option.some.injEq] at ht
    exact ht
  | var v => exact h v id ht

theorem isBound_unify {b b' : Binding} {t : Term EntityId} {id : EntityId}
    (h : b.unify t id = some b') (v : Variable) :
    b'.isBound v = true ↔ b.isBound v = true ∨ t.var? = some v := by
  cases t with
  | const c =>
    simp only [unify] at h
    split at h
    · cases h; simp [Term.var?]
    · cases h
  | var w =>
    simp only [unify] at h
    split at h
    · next x hx =>
      split at h
      · cases h
        simp only [Term.var?, Option.some.injEq, iff_self_or]
        rintro rfl
        exact isBound_iff.2 ⟨x, hx⟩
      · cases h
    · cases h
      simp [isBound_insert, Term.var?]

/-- Unifying keeps the valuations that give the term the entity. -/
theorem exists_unify_agrees_iff (b : Binding) (t : Term EntityId) (id : EntityId)
    (σ : Valuation) :
    (∃ b', b.unify t id = some b' ∧ b'.Agrees σ) ↔ b.Agrees σ ∧ t.valueAt σ = id := by
  cases t with
  | const c =>
    by_cases hc : c = id
    · simp [unify, Term.valueAt, hc]
    · simp [unify, Term.valueAt, hc]
  | var v =>
    cases hv : b.get? v with
    | none => simp [unify, Term.valueAt, hv, agrees_insert_iff hv]
    | some x =>
      have hx (hag : b.Agrees σ) : σ v = x := hag v x hv
      by_cases hxid : x = id
      · subst hxid
        simpa [unify, Term.valueAt, hv] using hx
      · simp only [unify, hv, if_neg hxid, Term.valueAt]
        constructor
        · rintro ⟨b', h, -⟩
          exact absurd h (by simp)
        · rintro ⟨hag, hid⟩
          exact absurd ((hx hag).symm.trans hid) hxid

end Binding

/-! ## Comparisons -/

namespace Builtin

theorem values_cons_of_some {b : Binding} {t : Term EntityId} {id : EntityId}
    (h : b.resolve? t = some id) (op : Builtin) (args : List (Term EntityId)) :
    op.values (t :: args) b = (op.values args b).map (id :: ·) := by
  unfold values
  rw [List.mapM_cons]
  cases t with
  | const c =>
    simp only [Binding.resolve?, Option.some.injEq] at h
    subst h
    cases args.mapM (m := Except MatchError) _ <;> rfl
  | var v =>
    simp only [Binding.resolve?] at h
    simp only [h]
    cases args.mapM (m := Except MatchError) _ <;> rfl

theorem values_cons_of_none {b : Binding} {t : Term EntityId} (h : b.resolve? t = none)
    (op : Builtin) (args : List (Term EntityId)) :
    ∃ e, op.values (t :: args) b = .error e := by
  cases t with
  | const c => simp [Binding.resolve?] at h
  | var v =>
    refine ⟨.unboundArgument op v, ?_⟩
    unfold values
    simp only [Binding.resolve?] at h
    rw [List.mapM_cons]
    simp only [h]
    rfl

/-- The arguments have values exactly if each of them resolves. -/
theorem values_eq_ok_iff (op : Builtin) (args : List (Term EntityId)) (b : Binding)
    (ids : List EntityId) :
    op.values args b = .ok ids ↔ args.map b.resolve? = ids.map some := by
  induction args generalizing ids with
  | nil => cases ids <;> simp [values, pure, Except.pure]
  | cons t args ih =>
    cases ht : b.resolve? t with
    | none =>
      obtain ⟨e, he⟩ := values_cons_of_none ht op args
      cases ids <;> simp [he, ht]
    | some id =>
      rw [values_cons_of_some ht op args]
      cases hrest : op.values args b with
      | error e =>
        have hne (rest : List EntityId) : args.map b.resolve? ≠ rest.map some :=
          fun heq => by simp [(ih rest).2 heq] at hrest
        cases ids with
        | nil => simp [Except.map]
        | cons id' ids => simp [Except.map, hne]
      | ok rest =>
        have hvals := (ih rest).1 hrest
        cases ids with
        | nil => simp [Except.map]
        | cons id' ids =>
          have hinj : rest = ids ↔ rest.map some = ids.map some :=
            (List.map_injective_iff.2 (Option.some_injective _)).eq_iff.symm
          simp [Except.map, ht, hvals, hinj]

theorem evaluate_eq_ok_true_iff (op : Builtin) (args : List (Term EntityId)) (b : Binding)
    (registry : Registry) :
    op.evaluate args b registry = .ok true ↔
      ∃ left right, op.values args b = .ok [left, right] ∧ op.holds registry left right = true := by
  unfold evaluate
  cases hvals : op.values args b with
  | error e => simp [bind, Except.bind]
  | ok ids =>
    match ids with
    | [] | [_] | _ :: _ :: _ :: _ => simp [bind, Except.bind, pure, Except.pure]
    | [left, right] => simp [bind, Except.bind, pure, Except.pure]

end Builtin

theorem Binding.Agrees.map_resolve?_eq_iff {b : Binding} {σ : Valuation} (hag : b.Agrees σ)
    (args : List (Term EntityId)) (ids : List EntityId) :
    args.map b.resolve? = ids.map some ↔
      args.map (Term.valueAt σ) = ids ∧ ∀ v ∈ args.filterMap Term.var?, b.isBound v = true := by
  induction args generalizing ids with
  | nil => cases ids <;> simp
  | cons t args ih =>
    cases ids with
    | nil => simp
    | cons id ids =>
      -- a term that resolves does so to its value, and a variable only if it is bound
      have hhead : b.resolve? t = some id ↔
          t.valueAt σ = id ∧ ∀ v, t.var? = some v → b.isBound v = true := by
        cases t with
        | const c => simp [Binding.resolve?, Term.valueAt, Term.var?]
        | var v =>
          simp only [Binding.resolve?, Term.valueAt, Term.var?, Option.some.injEq,
            forall_eq', isBound_iff]
          constructor
          · intro hv
            exact ⟨hag v id hv, id, hv⟩
          · rintro ⟨hid, x, hx⟩
            rw [hx, ← hag v x hx, hid]
      simp only [List.map_cons, List.cons.injEq, hhead, ih ids, List.mem_filterMap, List.mem_cons]
      constructor
      · rintro ⟨⟨hval, hbound⟩, hvals, hbounds⟩
        refine ⟨⟨hval, hvals⟩, ?_⟩
        rintro v ⟨t', rfl | ht', hv⟩
        · exact hbound v hv
        · exact hbounds v ⟨t', ht', hv⟩
      · rintro ⟨⟨hval, hvals⟩, hbounds⟩
        refine ⟨⟨hval, fun v hv => hbounds v ⟨t, Or.inl rfl, hv⟩⟩, hvals, ?_⟩
        rintro v ⟨t', ht', hv⟩
        exact hbounds v ⟨t', Or.inr ht', hv⟩

/-! ## Matching one atom -/

/-- A comparison waits for its variables; class and property atoms wait for nothing. -/
def Atom.RunsIn (b : Binding) (atom : Atom EntityId) : Prop :=
  atom.isRelational = false → ∀ v ∈ atom.vars, b.isBound v = true

/-- A comparison evaluates to true if it is true of the valuation and all its variables are bound. -/
theorem Binding.Agrees.evaluate_eq_ok_true_iff {b : Binding} {σ : Valuation} (hag : b.Agrees σ)
    (op : Builtin) (args : List (Term EntityId)) (registry : Registry) (facts : Set Fact) :
    op.evaluate args b registry = .ok true ↔
      (Atom.builtin op args).HoldsIn registry facts σ ∧ (Atom.builtin op args).RunsIn b := by
  simp only [Builtin.evaluate_eq_ok_true_iff, Builtin.values_eq_ok_iff,
    hag.map_resolve?_eq_iff, Atom.HoldsIn, Atom.RunsIn, Atom.isRelational, Atom.vars,
    Atom.terms, forall_const]
  constructor
  · rintro ⟨left, right, ⟨hvals, hbound⟩, hholds⟩
    exact ⟨⟨left, right, hvals, hholds⟩, hbound⟩
  · rintro ⟨⟨left, right, hvals, hholds⟩, hbound⟩
    exact ⟨left, right, ⟨hvals, hbound⟩, hholds⟩

namespace Matcher

variable (m : Matcher)

theorem mem_filter_iff (op : Builtin) (args : List (Term EntityId)) (b b' : Binding) :
    b' ∈ m.filter op args b ↔ b' = b ∧ op.evaluate args b m.registry = .ok true := by
  unfold filter
  split
  · next h => simp [h]
  · next h => simp [h]
  · next e h => simp [h]

theorem exists_mem_filter_iff (op : Builtin) (args : List (Term EntityId)) (b : Binding)
    (σ : Valuation) :
    (∃ b' ∈ m.filter op args b, b'.Agrees σ) ↔
      b.Agrees σ ∧ (Atom.builtin op args).HoldsIn m.registry m.store.factSet σ ∧
        (Atom.builtin op args).RunsIn b := by
  simp only [mem_filter_iff]
  constructor
  · rintro ⟨b', ⟨rfl, htrue⟩, hag⟩
    exact ⟨hag, (hag.evaluate_eq_ok_true_iff op args m.registry _).1 htrue⟩
  · rintro ⟨hag, hholds⟩
    exact ⟨b, ⟨rfl, (hag.evaluate_eq_ok_true_iff op args m.registry _).2 hholds⟩, hag⟩

theorem slot_some_iff (x y : EntityId) : FactPattern.slot (some x) y = true ↔ x = y := by
  simp [FactPattern.slot]

/-- The place of a term in a pattern takes the value of the term. -/
theorem slot_resolve? {b : Binding} {σ : Valuation} (hag : b.Agrees σ) (t : Term EntityId) :
    FactPattern.slot (b.resolve? t) (t.valueAt σ) = true := by
  unfold FactPattern.slot
  split
  · rfl
  · next id hid => simp [hag.resolve? hid]

theorem exists_mem_matchAtom_member_iff (cls : EntityId) (arg : Term EntityId) (b : Binding)
    (σ : Valuation) :
    (∃ b' ∈ m.matchAtom (.member cls arg) b, b'.Agrees σ) ↔
      b.Agrees σ ∧ Fact.member (arg.valueAt σ) cls ∈ m.store.factSet := by
  simp only [matchAtom, FactStore.select_eq_filter, List.mem_filterMap, List.mem_filter]
  constructor
  · rintro ⟨b', ⟨f, ⟨hf, haccepts⟩, hunify⟩, hag'⟩
    cases f with
    | link p s o => simp [FactPattern.accepts] at haccepts
    | member i c =>
      have hcls : cls = c := by
        simp only [FactPattern.accepts, Bool.and_eq_true] at haccepts
        exact (slot_some_iff _ _).1 haccepts.1
      obtain ⟨hag, hvalue⟩ := (b.exists_unify_agrees_iff arg i σ).1 ⟨b', hunify, hag'⟩
      refine ⟨hag, ?_⟩
      rw [hvalue, hcls]
      exact hf
  · rintro ⟨hag, hf⟩
    obtain ⟨b', hunify, hag'⟩ := (b.exists_unify_agrees_iff arg _ σ).2 ⟨hag, rfl⟩
    refine ⟨b', ⟨_, ⟨hf, ?_⟩, hunify⟩, hag'⟩
    simp only [FactPattern.accepts, Bool.and_eq_true]
    exact ⟨(slot_some_iff _ _).2 rfl, slot_resolve? hag arg⟩

theorem exists_mem_matchAtom_link_iff (property : EntityId) (subject object : Term EntityId)
    (b : Binding) (σ : Valuation) :
    (∃ b' ∈ m.matchAtom (.link property subject object) b, b'.Agrees σ) ↔
      b.Agrees σ ∧
        Fact.link property (subject.valueAt σ) (object.valueAt σ) ∈ m.store.factSet := by
  simp only [matchAtom, FactStore.select_eq_filter, List.mem_filterMap, List.mem_filter]
  constructor
  · rintro ⟨b', ⟨f, ⟨hf, haccepts⟩, hunify⟩, hag'⟩
    cases f with
    | member i c => simp [FactPattern.accepts] at haccepts
    | link p s o =>
      have hproperty : property = p := by
        simp only [FactPattern.accepts, Bool.and_eq_true] at haccepts
        exact (slot_some_iff _ _).1 haccepts.1.1
      obtain ⟨b₁, hsubject, hobject⟩ := Option.bind_eq_some_iff.1 hunify
      obtain ⟨hag₁, hvalueo⟩ := (b₁.exists_unify_agrees_iff object o σ).1 ⟨b', hobject, hag'⟩
      obtain ⟨hag, hvalues⟩ := (b.exists_unify_agrees_iff subject s σ).1 ⟨b₁, hsubject, hag₁⟩
      refine ⟨hag, ?_⟩
      rw [hvalues, hvalueo, hproperty]
      exact hf
  · rintro ⟨hag, hf⟩
    obtain ⟨b₁, hsubject, hag₁⟩ := (b.exists_unify_agrees_iff subject _ σ).2 ⟨hag, rfl⟩
    obtain ⟨b', hobject, hag'⟩ := (b₁.exists_unify_agrees_iff object _ σ).2 ⟨hag₁, rfl⟩
    refine ⟨b', ⟨_, ⟨hf, ?_⟩, Option.bind_eq_some_iff.2 ⟨b₁, hsubject, hobject⟩⟩, hag'⟩
    simp only [FactPattern.accepts, Bool.and_eq_true]
    exact ⟨⟨(slot_some_iff _ _).2 rfl, slot_resolve? hag subject⟩, slot_resolve? hag object⟩

/-- Matching an atom keeps the valuations under which it holds. -/
theorem exists_mem_matchAtom_iff (atom : Atom EntityId) (b : Binding) (σ : Valuation) :
    (∃ b' ∈ m.matchAtom atom b, b'.Agrees σ) ↔
      b.Agrees σ ∧ atom.HoldsIn m.registry m.store.factSet σ ∧ atom.RunsIn b := by
  cases atom with
  | builtin op args => exact m.exists_mem_filter_iff op args b σ
  | member cls arg =>
    rw [m.exists_mem_matchAtom_member_iff cls arg b σ]
    simp [Atom.HoldsIn, Atom.RunsIn, Atom.isRelational]
  | link property subject object =>
    rw [m.exists_mem_matchAtom_link_iff property subject object b σ]
    simp [Atom.HoldsIn, Atom.RunsIn, Atom.isRelational]

/-- Matching an atom binds the variables of class and property atoms. -/
theorem isBound_of_mem_matchAtom {atom : Atom EntityId} {b b' : Binding}
    (h : b' ∈ m.matchAtom atom b) (v : Variable) :
    b'.isBound v = true ↔
      b.isBound v = true ∨ (atom.isRelational = true ∧ v ∈ atom.vars) := by
  cases atom with
  | builtin op args =>
    have hb : b' = b := ((m.mem_filter_iff op args b b').1 h).1
    simp [hb, Atom.isRelational]
  | member cls arg =>
    simp only [matchAtom, List.mem_filterMap] at h
    obtain ⟨f, -, hunify⟩ := h
    cases f with
    | link p s o => simp [Atom.unify] at hunify
    | member i c =>
      rw [Binding.isBound_unify hunify v]
      simp [Atom.isRelational, Atom.vars, Atom.terms, List.mem_filterMap]
  | link property subject object =>
    simp only [matchAtom, List.mem_filterMap] at h
    obtain ⟨f, -, hunify⟩ := h
    cases f with
    | member i c => simp [Atom.unify] at hunify
    | link p s o =>
      obtain ⟨b₁, hsubject, hobject⟩ := Option.bind_eq_some_iff.1 hunify
      rw [Binding.isBound_unify hobject v, Binding.isBound_unify hsubject v]
      simp [Atom.isRelational, Atom.vars, Atom.terms, List.mem_filterMap, or_assoc]

end Matcher

/-! ## Matching a body -/

/-- Every comparison comes after class and property atoms that bind its variables, those in
    `bound` apart. -/
def InOrder {κ : Type} (bound : List Variable) : List (Atom κ) → Prop
  | [] => True
  | atom :: rest =>
    if atom.isRelational then InOrder (bound ++ atom.vars) rest
    else (∀ v ∈ atom.vars, v ∈ bound) ∧ InOrder bound rest

namespace Matcher

variable (m : Matcher)

/-- Matching a body binds the variables of its class and property atoms. -/
theorem isBound_of_mem_solve {body : List (Atom EntityId)} {b b' : Binding}
    (h : b' ∈ m.solve body b) (v : Variable) :
    b'.isBound v = true ↔ b.isBound v = true ∨ v ∈ boundVariables body := by
  induction body generalizing b with
  | nil =>
    simp only [solve, List.mem_singleton] at h
    simp [h, boundVariables]
  | cons atom rest ih =>
    simp only [solve, List.mem_flatMap] at h
    obtain ⟨b₁, hb₁, hb'⟩ := h
    rw [ih hb', m.isBound_of_mem_matchAtom hb₁ v]
    simp only [mem_boundVariables, List.mem_cons, exists_eq_or_imp, or_assoc]

/-- Matching a body keeps the valuations under which all of it holds. -/
theorem exists_mem_solve_iff (body : List (Atom EntityId)) {b : Binding} {bound : List Variable}
    (hbound : ∀ v, b.isBound v = true ↔ v ∈ bound) (σ : Valuation) :
    (∃ b' ∈ m.solve body b, b'.Agrees σ) ↔
      b.Agrees σ ∧ InOrder bound body ∧
        ∀ atom ∈ body, atom.HoldsIn m.registry m.store.factSet σ := by
  induction body generalizing b bound with
  | nil => simp [solve, InOrder]
  | cons atom rest ih =>
    -- the bindings that match the first atom all bind the same variables
    have hrest {b₁ : Binding} (hb₁ : b₁ ∈ m.matchAtom atom b) :=
      @ih b₁ (if atom.isRelational then bound ++ atom.vars else bound)
        (fun v => by
          rw [m.isBound_of_mem_matchAtom hb₁ v, hbound v]
          by_cases hrel : atom.isRelational = true <;> simp [hrel])
    have horder : InOrder bound (atom :: rest) ↔ atom.RunsIn b ∧
        InOrder (if atom.isRelational then bound ++ atom.vars else bound) rest := by
      by_cases hrel : atom.isRelational = true <;> simp [InOrder, Atom.RunsIn, hrel, hbound]
    rw [horder]
    simp only [solve, List.mem_flatMap, List.forall_mem_cons]
    constructor
    · rintro ⟨b', ⟨b₁, hb₁, hb'⟩, hag'⟩
      obtain ⟨hag₁, hin, hholds⟩ := (hrest hb₁).1 ⟨b', hb', hag'⟩
      obtain ⟨hag, hatom, hruns⟩ := (m.exists_mem_matchAtom_iff atom b σ).1 ⟨b₁, hb₁, hag₁⟩
      exact ⟨hag, ⟨hruns, hin⟩, hatom, hholds⟩
    · rintro ⟨hag, ⟨hruns, hin⟩, hatom, hholds⟩
      obtain ⟨b₁, hb₁, hag₁⟩ := (m.exists_mem_matchAtom_iff atom b σ).2 ⟨hag, hatom, hruns⟩
      obtain ⟨b', hb', hag'⟩ := (hrest hb₁).2 ⟨hag₁, hin, hholds⟩
      exact ⟨b', ⟨b₁, hb₁, hb'⟩, hag'⟩

end Matcher

end HornOntology
