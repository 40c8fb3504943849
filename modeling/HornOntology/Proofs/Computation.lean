import Mathlib.Data.List.Forall2

set_option autoImplicit false

/-! # Computations that may be refused

A computation changes a state as it goes on, and what it has changed stays when it is refused. A
`Contract` says what its state is to be like throughout and how it may move. `Meets` says that a
computation keeps the contract however it ends, and what its result is like if there is one. One
error is exempt: after it nothing is promised.

A computation meets a contract if its steps do (`Meets.bind`, `meets_mapM`, `meets_foldlM`). -/

namespace HornOntology

/-! ## Successful computations -/

theorem exists_of_bind_eq_ok {ε α β : Type} {x : Except ε α} {f : α → Except ε β} {b : β}
    (h : x >>= f = .ok b) : ∃ a, x = .ok a ∧ f a = .ok b := by
  cases x with
  | error e => cases h
  | ok a => exact ⟨a, rfl, h⟩

theorem eq_ok_of_mapError {ε ε' α : Type} {x : Except ε α} {f : ε → ε'} {a : α}
    (h : x.mapError f = .ok a) : x = .ok a := by
  cases x with
  | error e => cases h
  | ok b => cases h; rfl

theorem exists_of_map_eq_ok {ε α β : Type} {x : Except ε α} {f : α → β} {b : β}
    (h : x.map f = .ok b) : ∃ a, x = .ok a ∧ f a = b := by
  cases x with
  | error e => cases h
  | ok a => cases h; exact ⟨a, rfl, rfl⟩

theorem ofExcept_self {ε α : Type} (x : Except ε α) : (ofExcept x : Except ε α) = x := by
  cases x <;> rfl

theorem eq_ok_of_ofExcept {ε ε' α : Type} {x : Except ε α} {f : ε → ε'} {a : α}
    (h : (ofExcept (x.mapError f) : Except ε' α) = .ok a) : x = .ok a :=
  eq_ok_of_mapError ((ofExcept_self _).symm.trans h)

/-! ## Contracts -/

/-- What a computation owes to its state. -/
structure Contract (ε σ : Type) where
  /-- What the state is like. -/
  Good : σ → Prop
  /-- How the state may move. -/
  Later : σ → σ → Prop
  /-- The error after which nothing is promised. -/
  fatal : ε
  refl : ∀ s, Later s s
  trans : ∀ {s s' s''}, Later s s' → Later s' s'' → Later s s''

theorem run_bind_of_ok {ε σ α β : Type} {x : ExceptT ε (StateM σ) α} {s s' : σ} {a : α}
    (h : x.run s = (.ok a, s')) (f : α → ExceptT ε (StateM σ) β) :
    (x >>= f).run s = (f a).run s' := by
  rw [ExceptT.run_bind]
  simp only [bind, StateT.bind, h]

theorem run_bind_of_error {ε σ α β : Type} {x : ExceptT ε (StateM σ) α} {s s' : σ} {e : ε}
    (h : x.run s = (.error e, s')) (f : α → ExceptT ε (StateM σ) β) :
    (x >>= f).run s = (.error e, s') := by
  rw [ExceptT.run_bind]
  simp only [bind, StateT.bind, h]
  rfl

theorem run_bind_pure_eq_error_iff {ε σ α β : Type} {x : ExceptT ε (StateM σ) α} {g : α → β}
    {s s' : σ} {e : ε} :
    (x >>= fun a => pure (g a)).run s = (.error e, s') ↔ x.run s = (.error e, s') := by
  rcases hrun : x.run s with ⟨e' | a, s₁⟩
  · rw [run_bind_of_error hrun, Prod.mk.injEq, Prod.mk.injEq, Except.error.injEq,
      Except.error.injEq]
  · rw [run_bind_of_ok hrun]
    exact iff_of_false (fun h => by cases h) fun h => by cases h

theorem run_bind_pure_eq_ok_iff {ε σ α β : Type} {x : ExceptT ε (StateM σ) α} {g : α → β}
    {s s' : σ} {b : β} :
    (x >>= fun a => pure (g a)).run s = (.ok b, s') ↔ ∃ a, x.run s = (.ok a, s') ∧ g a = b := by
  constructor
  · intro h
    rcases hrun : x.run s with ⟨e | a, s₁⟩
    · rw [run_bind_of_error hrun] at h
      cases h
    · rw [run_bind_of_ok hrun] at h
      cases h
      exact ⟨a, rfl, rfl⟩
  · rintro ⟨a, hrun, rfl⟩
    exact run_bind_of_ok hrun _

/-- A run over a list that is refused stops at one of its elements: those before it are accepted,
    and those after it are not looked at. -/
theorem exists_of_run_foldlM_error {ε σ α β : Type} {f : β → α → ExceptT ε (StateM σ) β}
    {l : List α} {b : β} {s s' : σ} {e : ε} (h : (l.foldlM f b).run s = (.error e, s')) :
    ∃ k a b₁ s₁, l[k]? = some a ∧ ((l.take k).foldlM f b).run s = (.ok b₁, s₁) ∧
      (f b₁ a).run s₁ = (.error e, s') ∧
      ∀ j, k < j → ((l.take j).foldlM f b).run s = (.error e, s') := by
  induction l generalizing b s with
  | nil => cases h
  | cons a l ih =>
    rw [List.foldlM_cons] at h
    rcases hrun : (f b a).run s with ⟨e' | b₁, s₁⟩
    · rw [run_bind_of_error hrun] at h
      rw [h] at hrun
      refine ⟨0, a, b, s, rfl, rfl, hrun, fun j hj => ?_⟩
      obtain ⟨j, rfl⟩ := Nat.exists_eq_add_one_of_ne_zero (Nat.ne_of_gt hj)
      rw [List.take_succ_cons, List.foldlM_cons, run_bind_of_error hrun]
    · rw [run_bind_of_ok hrun] at h
      obtain ⟨k, a', b₂, s₂, ha', hbefore, herror, hafter⟩ := ih h
      refine ⟨k + 1, a', b₂, s₂, ha', ?_, herror, fun j hj => ?_⟩
      · rw [List.take_succ_cons, List.foldlM_cons, run_bind_of_ok hrun, hbefore]
      · obtain ⟨j, rfl⟩ := Nat.exists_eq_add_one_of_ne_zero (Nat.ne_of_gt (Nat.zero_lt_of_lt hj))
        rw [List.take_succ_cons, List.foldlM_cons, run_bind_of_ok hrun,
          hafter j (Nat.lt_of_succ_lt_succ hj)]

/-- What every accepted step keeps is kept by a run over a list that is accepted. -/
theorem of_run_foldlM_ok {ε σ α β : Type} {f : β → α → ExceptT ε (StateM σ) β} (I : β → σ → Prop)
    (hstep : ∀ {b a s b' s'}, I b s → (f b a).run s = (.ok b', s') → I b' s') {l : List α}
    {b b' : β} {s s' : σ} (hb : I b s) (h : (l.foldlM f b).run s = (.ok b', s')) : I b' s' := by
  induction l generalizing b s with
  | nil =>
    cases h
    exact hb
  | cons a l ih =>
    rw [List.foldlM_cons] at h
    rcases hrun : (f b a).run s with ⟨e | b₁, s₁⟩
    · rw [run_bind_of_error hrun] at h
      cases h
    · rw [run_bind_of_ok hrun] at h
      exact ih (hstep hb hrun) h

namespace Contract

variable {ε σ α β : Type} {C : Contract ε σ} {s : σ}

/-- From this state the computation leads to a good and later one, even if it is refused, and its
    result is as `Q` says. -/
def Meets (C : Contract ε σ) (s : σ) (act : ExceptT ε (StateM σ) α) (Q : σ → α → Prop) : Prop :=
  (act.run s).1 ≠ .error C.fatal →
    C.Good (act.run s).2 ∧ C.Later s (act.run s).2 ∧
      ∀ a, (act.run s).1 = .ok a → Q (act.run s).2 a

theorem meets_pure {a : α} {Q : σ → α → Prop} (hs : C.Good s) (ha : Q s a) :
    C.Meets s (pure a) Q := by
  intro _
  refine ⟨hs, C.refl s, fun b hb => ?_⟩
  cases hb
  exact ha

theorem meets_get {f : σ → ExceptT ε (StateM σ) α} {Q : σ → α → Prop} (h : C.Meets s (f s) Q) :
    C.Meets s (get >>= f) Q := h

theorem meets_of_run {act : ExceptT ε (StateM σ) α} {result : Except ε α} {s' : σ}
    (hrun : act.run s = (result, s'))
    (h : result ≠ .error C.fatal → C.Good s' ∧ C.Later s s') :
    C.Meets s act fun _ _ => True := by
  intro hfatal
  rw [hrun] at hfatal ⊢
  exact ⟨(h hfatal).1, (h hfatal).2, fun _ _ => trivial⟩

theorem meets_modify {f : σ → σ} (hgood : C.Good (f s)) (hlater : C.Later s (f s)) :
    C.Meets s (modify f) fun _ _ => True :=
  meets_of_run rfl fun _ => ⟨hgood, hlater⟩

theorem Meets.imp {act : ExceptT ε (StateM σ) α} {P Q : σ → α → Prop} (h : C.Meets s act P)
    (hPQ : ∀ s' a, P s' a → Q s' a) : C.Meets s act Q := by
  intro hfatal
  obtain ⟨hgood, hlater, hresult⟩ := h hfatal
  exact ⟨hgood, hlater, fun a ha => hPQ _ a (hresult a ha)⟩

/-- The second step begins where the first one ends. -/
theorem Meets.bind {x : ExceptT ε (StateM σ) α} {f : α → ExceptT ε (StateM σ) β}
    {P : σ → α → Prop} {Q : σ → β → Prop} (hx : C.Meets s x P)
    (hf : ∀ a s', C.Good s' → C.Later s s' → P s' a → C.Meets s' (f a) Q) :
    C.Meets s (x >>= f) Q := by
  intro hfatal
  rcases hrun : x.run s with ⟨e | a, s'⟩
  · rw [run_bind_of_error hrun] at hfatal ⊢
    have he : e ≠ C.fatal := fun he => hfatal (congrArg _ he)
    obtain ⟨hgood, hlater, -⟩ := hx (by simpa [hrun] using he)
    rw [hrun] at hgood hlater
    exact ⟨hgood, hlater, fun b hb => by cases hb⟩
  · rw [run_bind_of_ok hrun] at hfatal ⊢
    obtain ⟨hgood, hlater, hresult⟩ := hx (by simp [hrun])
    rw [hrun] at hgood hlater hresult
    obtain ⟨hgood', hlater', hresult'⟩ := hf a s' hgood hlater (hresult a rfl) hfatal
    exact ⟨hgood', C.trans hlater hlater', hresult'⟩

/-- A computation on each element of a list, from left to right: what relates an element to its
    result must survive the later ones. -/
theorem meets_mapM {f : α → ExceptT ε (StateM σ) β} {S : σ → α → β → Prop}
    (hmono : ∀ {s s' a b}, C.Later s s' → S s a b → S s' a b)
    (hf : ∀ a {s}, C.Good s → C.Meets s (f a) fun s' b => S s' a b) (l : List α)
    (hs : C.Good s) : C.Meets s (l.mapM f) fun s' l' => List.Forall₂ (S s') l l' := by
  induction l generalizing s with
  | nil =>
    rw [List.mapM_nil]
    exact meets_pure hs .nil
  | cons a l ih =>
    rw [List.mapM_cons]
    refine (hf a hs).bind fun b s₁ hs₁ _ hb => ?_
    refine (ih hs₁).bind fun bs s₂ hs₂ hlater hbs => ?_
    exact meets_pure hs₂ (.cons (hmono hlater hb) hbs)

theorem meets_foldlM {f : β → α → ExceptT ε (StateM σ) β} (l : List α)
    (hf : ∀ b a {s}, C.Good s → C.Meets s (f b a) fun _ _ => True) (b : β) (hs : C.Good s) :
    C.Meets s (l.foldlM f b) fun _ _ => True := by
  induction l generalizing s b with
  | nil => exact meets_pure hs trivial
  | cons a l ih =>
    rw [List.foldlM_cons]
    exact (hf b a hs).bind fun b' s' hs' _ _ => ih b' hs'

end Contract

end HornOntology
