import HornOntology.KnowledgeBase
import HornOntology.Proofs.Registration

set_option autoImplicit false

/-! # The names that a computation registers

A computation on the registry is a sequence of calls that intern names, and it ends with the first
call that is refused. `Gains` is the effect of granted calls for some names, and `RegistersOnly`
says that a computation makes granted calls for these names only, wherever it ends: the names in an
axiom or a fact are the only ones that reading it registers. A text is different, since its names
are registered when it cannot be refused any more (`Registry.Reachable.eq_of_commit_error`). -/

namespace HornOntology

/-! ## Granted calls -/

namespace Registry

variable {r r' : Registry} {names names' : List String}

/-- The second registry comes from the first by granted calls for some of the names. -/
def Gains (names : List String) : Registry → Registry → Prop :=
  Relation.ReflTransGen fun r r' => ∃ name ∈ names, ∃ kind id, r.intern name kind = (.ok id, r')

theorem Gains.mono (hsub : names ⊆ names') (h : r.Gains names r') : r.Gains names' r' := by
  refine Relation.ReflTransGen.mono (fun r r' => ?_) r r' h
  rintro ⟨name, hname, hgranted⟩
  exact ⟨name, hsub hname, hgranted⟩

theorem gains_nil_iff : r.Gains [] r' ↔ r' = r :=
  Relation.reflTransGen_iff_eq fun _ ⟨_, hname, _⟩ => List.not_mem_nil hname

theorem Gains.reachable (h : r.Gains names r') (hr : r.Reachable) : r'.Reachable := by
  induction h with
  | refl => exact hr
  | tail _ hstep ih =>
    obtain ⟨name, -, kind, id, hrun⟩ := hstep
    have hnext := ih.intern name kind
    rwa [hrun] at hnext

theorem Gains.built (h : r.Gains names r') (hr : r.Built) : r'.Built := by
  induction h with
  | refl => exact hr
  | tail _ hstep ih =>
    obtain ⟨name, -, kind, id, hrun⟩ := hstep
    exact ih.of_intern hrun

/-- As long as identifiers are not used again, granted calls only append entities. -/
theorem Gains.exists_added (h : r.Gains names r') (hr : r.Built) :
    ∃ added, r'.all = r.all ++ added ∧ ∀ e ∈ added, e.name ∈ names := by
  induction h with
  | refl => exact ⟨[], (List.append_nil _).symm, List.forall_mem_nil _⟩
  | @tail r₁ r₂ hgains hstep ih =>
    obtain ⟨added, hall, hadded⟩ := ih
    obtain ⟨name, hname, kind, id, hrun⟩ := hstep
    rcases (Gains.built hgains hr).wellFormed.intern_cases name kind with ⟨e, -, -, -, h⟩ |
      ⟨e, -, -, -, h⟩ | ⟨id', r', -, h, -, hall', -⟩ | ⟨-, -, h⟩
    · cases h.symm.trans hrun
      exact ⟨added, hall, hadded⟩
    · cases h.symm.trans hrun
    · cases h.symm.trans hrun
      refine ⟨added ++ [⟨id, kind, name⟩], by rw [hall', hall, List.append_assoc], ?_⟩
      exact List.forall_mem_append.2 ⟨hadded, List.forall_mem_singleton.2 hname⟩
    · simp [hrun] at h

/-- A call that is refused adds nothing; without an identifier to give, the supply moves on. -/
theorem intern_of_error {name : String} {kind : EntityKind} {e : RegistryError}
    (h : r.intern name kind = (.error e, r')) :
    r' = r ∨ e = .exhausted ∧ r' = { r with supply := r.supply.take.2 } := by
  unfold intern register at h
  split at h
  · split at h
    · next supply htake =>
      cases h
      exact .inr ⟨rfl, by rw [htake]⟩
    · cases h
  · split at h
    · cases h
      exact .inl rfl
    · split at h
      · cases h
      · cases h
        exact .inl rfl

end Registry

/-! ## Computations that register certain names only -/

namespace RegistryM

open Registry (Gains)

variable {α β : Type} {names : List String}

/-- Wherever the computation stops, it has made granted calls for these names and no others. -/
def RegistersOnly (names : List String) (act : RegistryM α) : Prop :=
  ∀ r : Registry, ∃ r₁, r.Gains names r₁ ∧
    ((act.run r).2 = r₁ ∨
      (act.run r).1 = .error .exhausted ∧
        (act.run r).2 = { r₁ with supply := r₁.supply.take.2 })

theorem RegistersOnly.gains {act : RegistryM α} (h : RegistersOnly names act) {r r' : Registry}
    {a : α} (hrun : act.run r = (.ok a, r')) : r.Gains names r' := by
  obtain ⟨r₁, hgains, heq | ⟨hfail, -⟩⟩ := h r
  · rw [hrun] at heq
    cases heq
    exact hgains
  · simp [hrun] at hfail

theorem RegistersOnly.mono {names' : List String} (hsub : names ⊆ names') {act : RegistryM α}
    (h : RegistersOnly names act) : RegistersOnly names' act := by
  intro r
  obtain ⟨r₁, hgains, hend⟩ := h r
  exact ⟨r₁, hgains.mono hsub, hend⟩

theorem registersOnly_pure (a : α) : RegistersOnly names (pure a) :=
  fun r => ⟨r, .refl, .inl rfl⟩

theorem RegistersOnly.bind {act : RegistryM α} {f : α → RegistryM β}
    (hact : RegistersOnly names act) (hf : ∀ a, RegistersOnly names (f a)) :
    RegistersOnly names (act >>= f) := by
  intro r
  rcases hrun : act.run r with ⟨e | a, r₁⟩
  · rw [run_bind_of_error hrun]
    have h := hact r
    rw [hrun] at h
    obtain ⟨r₂, hgains, hend⟩ := h
    exact ⟨r₂, hgains, hend.imp_right (And.imp_left fun he => congrArg _ (Except.error.inj he))⟩
  · rw [run_bind_of_ok hrun]
    obtain ⟨r₂, hgains, hend⟩ := hf a r₁
    exact ⟨r₂, (hact.gains hrun).trans hgains, hend⟩

theorem registersOnly_intern {name : String} (hname : name ∈ names) (kind : EntityKind) :
    RegistersOnly names (intern name kind) := by
  intro r
  rcases hrun : r.intern name kind with ⟨e | id, r'⟩
  · rw [show (intern name kind).run r = _ from hrun]
    refine ⟨r, .refl, (Registry.intern_of_error hrun).imp_right (And.imp_left fun he => ?_)⟩
    exact congrArg _ he
  · rw [show (intern name kind).run r = _ from hrun]
    exact ⟨r', .single ⟨name, hname, kind, id, hrun⟩, .inl rfl⟩

theorem registersOnly_property {name : String} (hname : name ∈ names) :
    RegistersOnly names (property name) := by
  have hnew := registersOnly_intern hname .objectProperty
  refine RegistersOnly.bind (fun r => ⟨r, .refl, .inl rfl⟩) fun registry => ?_
  split
  · split
    · exact registersOnly_pure _
    · exact hnew
  · exact hnew

theorem registersOnly_mapM {f : α → RegistryM β} {l : List α}
    (h : ∀ a ∈ l, RegistersOnly names (f a)) : RegistersOnly names (l.mapM f) := by
  induction l with
  | nil =>
    rw [List.mapM_nil]
    exact registersOnly_pure _
  | cons a l ih =>
    rw [List.mapM_cons]
    rw [List.forall_mem_cons] at h
    exact h.1.bind fun _ => (ih h.2).bind fun _ => registersOnly_pure _

end RegistryM

/-! ## The entries of a document -/

namespace ClassEntry

mutual

/-- The names in a class expression. -/
def names : ClassEntry → List String
  | named name => [name]
  | intersection parts => namesAll parts
  | hasValue property value => [property, value]

/-- The names in class expressions, from left to right. -/
def namesAll : List ClassEntry → List String
  | [] => []
  | part :: rest => names part ++ namesAll rest

end

end ClassEntry

/-- The names in an axiom. -/
def AxiomEntry.names : AxiomEntry → List String
  | subClassOf sub sup => sub.names ++ sup.names
  | equivalentClasses classes => ClassEntry.namesAll classes
  | disjointClasses classes => classes

/-- The names in a fact. -/
def FactEntry.names : FactEntry → List String
  | member individual cls => [individual, cls]
  | link subject property object => [subject, property, object]

namespace RegistryM

mutual

theorem registersOnly_classExpr : ∀ entry : ClassEntry,
    RegistersOnly entry.names (classExpr entry)
  | .named name => by
    rw [classExpr, ClassEntry.names]
    exact (registersOnly_intern List.mem_cons_self _).bind fun _ => registersOnly_pure _
  | .intersection parts => by
    rw [classExpr, ClassEntry.names]
    exact (registersOnly_classExprs parts).bind fun _ => registersOnly_pure _
  | .hasValue property value => by
    rw [classExpr, ClassEntry.names]
    refine (registersOnly_property List.mem_cons_self).bind fun _ => ?_
    refine (registersOnly_intern ?_ _).bind fun _ => registersOnly_pure _
    exact List.mem_cons_of_mem _ List.mem_cons_self

theorem registersOnly_classExprs : ∀ entries : List ClassEntry,
    RegistersOnly (ClassEntry.namesAll entries) (classExprs entries)
  | [] => by
    rw [classExprs]
    exact registersOnly_pure _
  | part :: rest => by
    rw [classExprs, ClassEntry.namesAll]
    have hpart := (registersOnly_classExpr part).mono
      (List.subset_append_left _ (ClassEntry.namesAll rest))
    have hrest := (registersOnly_classExprs rest).mono (List.subset_append_right part.names _)
    exact hpart.bind fun _ => hrest.bind fun _ => registersOnly_pure _

end

theorem registersOnly_ofAxiomEntry (entry : AxiomEntry) :
    RegistersOnly entry.names (ofAxiomEntry entry) := by
  cases entry with
  | subClassOf sub sup =>
    have hsub := (registersOnly_classExpr sub).mono (List.subset_append_left _ sup.names)
    have hsup := (registersOnly_classExpr sup).mono (List.subset_append_right sub.names _)
    exact hsub.bind fun _ => hsup.bind fun _ => registersOnly_pure _
  | equivalentClasses classes =>
    exact (registersOnly_classExprs classes).bind fun _ => registersOnly_pure _
  | disjointClasses classes =>
    have hnames : RegistersOnly classes (classes.mapM (intern · .cls)) :=
      registersOnly_mapM fun name hname => registersOnly_intern hname .cls
    exact hnames.bind fun _ => registersOnly_pure _

theorem registersOnly_ofFactEntry (entry : FactEntry) :
    RegistersOnly entry.names (ofFactEntry entry) := by
  cases entry with
  | member individual cls =>
    refine (registersOnly_intern (by simp [FactEntry.names]) _).bind fun _ => ?_
    refine (registersOnly_intern (by simp [FactEntry.names]) _).bind fun _ => ?_
    exact registersOnly_pure _
  | link subject property object =>
    refine (registersOnly_property (by simp [FactEntry.names])).bind fun _ => ?_
    refine (registersOnly_intern (by simp [FactEntry.names]) _).bind fun _ => ?_
    refine (registersOnly_intern (by simp [FactEntry.names]) _).bind fun _ => ?_
    exact registersOnly_pure _

end RegistryM

/-! ## Texts -/

/-- Where no name is new, there is nothing to intern. -/
theorem forM_intern_of_known {constants : List Constant} (h : freshNames constants = []) :
    (forM constants fun c => discard c.intern : RegistryM Unit) = pure () := by
  have hknown : ∀ c ∈ constants, c.fresh? = none := by
    rw [← List.filterMap_eq_nil_iff, List.eq_nil_iff_forall_not_mem]
    intro name hname
    have hmem : name ∈ freshNames constants := List.mem_eraseDups.2 hname
    rw [h] at hmem
    exact List.not_mem_nil hmem
  clear h
  induction constants with
  | nil => rfl
  | cons c constants ih =>
    rw [List.forall_mem_cons] at hknown
    cases c with
    | known id => exact ih hknown.2
    | fresh name => cases hknown.1

namespace Registry

variable {α β : Type} {constants : α → List Constant} {intern : α → RegistryM β} {r r' : Registry}
  {plain : Except Error α} {reading : RuleText.Reading α}
  (hintern : ∀ draft, discard (intern draft) = forM (constants draft) fun c => discard c.intern)

include hintern

theorem exists_gains_of_commit {b : β} (h : commit intern r reading = (.ok b, r')) :
    ∃ names, r.Gains names r' := by
  obtain ⟨draft, hrun⟩ : ∃ draft, (intern draft).run r = (.ok b, r') := by
    unfold commit at h
    split at h
    · cases h
    · next draft _ _ =>
      obtain ⟨hresult, hregistry⟩ := Prod.mk.inj h
      exact ⟨draft, Prod.ext (eq_ok_of_mapError hresult) hregistry⟩
  have heffects := run_discard_eq_ok_iff.2 ⟨b, hrun⟩
  rw [hintern, ← discard_mapM] at heffects
  obtain ⟨ids, hids⟩ := run_discard_eq_ok_iff.1 heffects
  refine ⟨(constants draft).filterMap Constant.fresh?, ?_⟩
  refine (RegistryM.registersOnly_mapM fun c hc => ?_).gains hids
  cases c with
  | known id => exact RegistryM.registersOnly_pure id
  | fresh name => exact RegistryM.registersOnly_intern (List.mem_filterMap.2 ⟨_, hc, rfl⟩) _

/-- A text that is refused leaves no trace, also when identifiers are used again: then no text with
    a new name is accepted. -/
theorem Reachable.eq_of_commit_error (hr : r.Reachable) {e : Error}
    (hreading : RuleText.Follows r
      (fun met draft => freshNames met = freshNames (constants draft)) plain reading)
    (hoffers : ∀ draft, plain = .ok draft → ∀ c ∈ constants draft, r.Offers c)
    (h : commit intern r reading = (.error e, r')) : r' = r := by
  rcases commit_cases hreading intern with ⟨draft, rfl, hroom, hcommit⟩ | ⟨e', hcommit, -⟩
  · exfalso
    rcases hr.built_or_full with hbuilt | hfull
    · obtain ⟨b, r₁, hok, -⟩ := hbuilt.commit_of_ok hintern hreading (hoffers draft rfl) hroom
      cases hok.symm.trans h
    · rw [hfull, Nat.le_zero, List.length_eq_zero_iff] at hroom
      have heffects : (discard (intern draft)).run r = (.ok (), r) := by
        rw [hintern, forM_intern_of_known hroom]
        rfl
      obtain ⟨b, hrun⟩ := run_discard_eq_ok_iff.1 heffects
      rw [hcommit, hrun] at h
      cases h
  · cases hcommit.symm.trans h
    rfl

end Registry

end HornOntology
