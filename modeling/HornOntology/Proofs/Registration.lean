import HornOntology.Proofs.Reading
import HornOntology.Proofs.RoundTrip

set_option autoImplicit false

/-! # What reading a text leaves in the registry

A text that is refused leaves no trace: the registry is the one it was read with. A text that is
accepted leaves the constants that it writes and that meant nothing before. Each becomes one
individual, with the next identifiers, in the order in which they are first written, those of the
body before those of the head (`parse_registers`).

The proof has three parts. What is read from a text has the constants that are written there
(`freshNames_of_readRule`); to replace the constants of a rule has the effects of interning them
one by one, whatever the rule looks like (`Rule.discard_mapConstM`); and interning new names one by
one cannot be refused when there are identifiers for all of them (`Registry.Built.forM_intern`). -/

namespace HornOntology

/-! ## The constants that a text writes -/

namespace RuleText

/-- The name that an argument writes, if it is not a variable. -/
def constantName? (arg : List Char) : Option String :=
  match readVariable? arg with
  | some _ => none
  | none => some (String.ofList (literal arg))

/-- The constants that one side of the arrow writes, from left to right. -/
def sideConstants (input : String) (side : List Char) : Except TextError (List String) := do
  let parts ← split .caret side
  let atoms ← parts.mapM fun part => splitAtom input (Text.trim part)
  return (atoms.flatMap Prod.snd).filterMap constantName?

/-- The constants that a rule text writes, those of the body before those of the head. -/
def ruleConstants (text : String) : Except TextError (List String) := do
  let (body, head) ← sides text
  let bodyConstants ← sideConstants text body
  let headConstants ← sideConstants text head
  return bodyConstants ++ headConstants

/-- The constants that a query text writes: a selection has none. -/
def queryConstants (text : String) : Except TextError (List String) := do
  let (body, _) ← sides text
  sideConstants text body

end RuleText

/-- The names that mean nothing, each where it occurs first. -/
def Registry.newNames (r : Registry) (names : List String) : List String :=
  (names.filter fun name => r.resolve name = .error (.notFound name)).eraseDups

namespace RuleText

variable {registry : Registry}

theorem rel_constantName? {arg : List Char} {t : Term Constant}
    (h : term (checked registry) arg = .ok t) :
    Option.Rel (fun name c => checked registry name = .ok c) (constantName? arg) t.const? := by
  unfold term at h
  unfold constantName?
  cases hv : readVariable? arg with
  | some v =>
    rw [hv] at h
    cases h
    exact .none
  | none =>
    rw [hv] at h
    obtain ⟨c, hc, h⟩ := exists_of_bind_eq_ok h
    cases h
    exact .some hc

theorem constants_of_atoms {input : String} {parts : List (List Char)}
    {atoms : List (Atom Constant)}
    (h : List.Forall₂
      (fun part a => atom registry (checked registry) input (Text.trim part) = .ok a) parts atoms) :
    ∃ split, parts.mapM (fun part => splitAtom input (Text.trim part)) = .ok split ∧
      List.Forall₂ (fun name c => checked registry name = .ok c)
        ((split.flatMap Prod.snd).filterMap constantName?) (atoms.flatMap Atom.constants) := by
  induction h with
  | nil => exact ⟨[], rfl, .nil⟩
  | cons ha _ ih =>
    obtain ⟨name, args, hsplit, -, hterms⟩ := of_atom ha
    obtain ⟨split, hsplits, hrest⟩ := ih
    refine ⟨(name, args) :: split, mapM_eq_ok_iff.2 (.cons hsplit (mapM_eq_ok_iff.1 hsplits)), ?_⟩
    rw [List.flatMap_cons, List.flatMap_cons, List.filterMap_append]
    exact List.rel_append (List.rel_filterMap (fun _ _ ht => rel_constantName? ht) hterms) hrest

/-- The constants of a conjunction are those that its text writes. -/
theorem constants_of_conjunction {input : String} {side : List Char}
    {atoms : List (Atom Constant)}
    (h : conjunction registry (checked registry) input side = .ok atoms) :
    ∃ names, sideConstants input side = .ok names ∧
      List.Forall₂ (fun name c => checked registry name = .ok c) names
        (atoms.flatMap Atom.constants) := by
  obtain ⟨parts, hparts, h⟩ := exists_of_bind_eq_ok h
  obtain ⟨split, hsplit, hconstants⟩ := constants_of_atoms (mapM_eq_ok_iff.1 h)
  refine ⟨_, ?_, hconstants⟩
  rw [sideConstants, eq_ok_of_ofExcept hparts]
  simp only [bind, Except.bind, hsplit]
  rfl

/-- A constant is new if its name means nothing. -/
theorem fresh?_of_constant {name : String} {c : Constant} (h : checked registry name = .ok c) :
    c.fresh? = if registry.resolve name = .error (.notFound name) then some name else none := by
  unfold checked at h
  split at h
  · next id hid =>
    rw [hid, if_neg (by simp)]
    split at h
    · cases h
      rfl
    · cases h
    · cases h
  · next missing hmissing =>
    cases h
    rw [hmissing, (Registry.of_resolve_notFound hmissing).2, if_pos rfl]
    rfl
  · cases h

theorem filterMap_fresh? {names : List String} {constants : List Constant}
    (h : List.Forall₂ (fun name c => checked registry name = .ok c) names constants) :
    constants.filterMap Constant.fresh? =
      names.filter fun name => registry.resolve name = .error (.notFound name) := by
  induction h with
  | nil => rfl
  | @cons name c _ _ hc _ ih =>
    rw [List.filterMap_cons, fresh?_of_constant hc, ih]
    by_cases hnew : registry.resolve name = .error (.notFound name)
    · rw [if_pos hnew, List.filter_cons_of_pos (by simpa using hnew)]
    · rw [if_neg hnew, List.filter_cons_of_neg (by simpa using hnew)]

/-- The new names of a rule are the constants of its text that mean nothing. An atom that the head
    repeats has no names of its own. -/
theorem freshNames_of_readRule {name text : String} {draft : Rule Constant}
    (h : readRule registry (checked registry) name text = .ok draft) :
    ∃ names, ruleConstants text = .ok names ∧
      freshNames draft.constants = registry.newNames names := by
  obtain ⟨bodyText, headText, body, head, hsides, hbody, hhead, hparts⟩ := exists_of_readRule h
  obtain ⟨-, -, rfl⟩ := Rule.ofParts_eq_ok_iff.1 hparts
  obtain ⟨bodyNames, hbodyNames, hbodyRel⟩ := constants_of_conjunction hbody
  obtain ⟨headNames, hheadNames, hheadRel⟩ := constants_of_conjunction hhead
  refine ⟨bodyNames ++ headNames, ?_, ?_⟩
  · rw [ruleConstants, hsides]
    simp only [bind, Except.bind, hbodyNames, hheadNames]
    rfl
  · rw [Registry.newNames, ← filterMap_fresh? (List.rel_append hbodyRel hheadRel), freshNames,
      Rule.constants]
    simp only [List.flatMap_append, List.filterMap_append, List.filterMap_flatMap]
    exact eraseDups_append_flatMap_eraseDups _ _ head

theorem freshNames_of_readQuery {name text : String} {draft : Query Constant}
    (h : readQuery registry (checked registry) name text = .ok draft) :
    ∃ names, queryConstants text = .ok names ∧
      freshNames draft.constants = registry.newNames names := by
  obtain ⟨bodyText, headText, body, distinct, projection, hsides, hbody, -, hparts⟩ :=
    exists_of_readQuery h
  obtain ⟨-, -, rfl⟩ := Query.ofParts_eq_ok_iff.1 hparts
  obtain ⟨names, hnames, hrel⟩ := constants_of_conjunction hbody
  refine ⟨names, ?_, ?_⟩
  · rw [queryConstants, hsides]
    exact hnames
  · rw [Registry.newNames, ← filterMap_fresh? hrel]
    rfl

end RuleText

/-! ## The effects of replacing constants -/

section Effects

variable {m : Type → Type} [Monad m] [LawfulMonad m] {κ lam : Type} (f : κ → m lam)

theorem discard_eq_bind {α : Type} (x : m α) : discard x = x >>= fun _ => pure () := by
  rw [discard, map_const, Function.comp_apply, map_eq_pure_bind]

theorem discard_mapM {α β : Type} (g : α → m β) (l : List α) :
    discard (l.mapM g) = forM l fun a => discard (g a) := by
  induction l with
  | nil => rw [List.mapM_nil, discard_eq_bind, pure_bind, List.forM_nil]
  | cons a l ih =>
    rw [List.mapM_cons, List.forM_cons, ← ih]
    simp only [discard_eq_bind, bind_assoc, pure_bind]

theorem forM_flatMap {α β : Type} (g : β → m Unit) (h : α → List β) (l : List α) :
    forM (l.flatMap h) g = forM l fun a => forM (h a) g := by
  induction l with
  | nil => rfl
  | cons a l ih => rw [List.flatMap_cons, List.forM_append, List.forM_cons, ih]

theorem Term.discard_mapConstM (t : Term κ) :
    discard (t.mapConstM f) = forM t.const?.toList fun k => discard (f k) := by
  cases t with
  | const k => simp [mapConstM, const?, discard_eq_bind]
  | var v => simp [mapConstM, const?, discard_eq_bind]

theorem Atom.discard_mapConstM (a : Atom κ) :
    discard (a.mapConstM f) = forM a.constants fun k => discard (f k) := by
  have hterms : discard (a.terms.mapM (Term.mapConstM f)) =
      forM a.constants fun k => discard (f k) := by
    rw [discard_mapM, constants_eq_flatMap, forM_flatMap]
    exact congrArg (forM a.terms) (funext (Term.discard_mapConstM f))
  rw [← hterms]
  cases a with
  | member cls t => simp [mapConstM, terms, discard_eq_bind]
  | link property s o => simp [mapConstM, terms, discard_eq_bind]
  | builtin op ts => simp [mapConstM, terms, discard_eq_bind]

theorem discard_mapM_mapConstM (atoms : List (Atom κ)) :
    discard (atoms.mapM (Atom.mapConstM f)) =
      forM (atoms.flatMap Atom.constants) fun k => discard (f k) := by
  rw [discard_mapM, forM_flatMap]
  exact congrArg (forM atoms) (funext (Atom.discard_mapConstM f))

/-- To replace the constants of a rule is to run the computation for each of them. -/
theorem Rule.discard_mapConstM (rule : Rule κ) :
    discard (rule.mapConstM f) = forM rule.constants fun k => discard (f k) := by
  rw [constants, List.flatMap_append, List.forM_append, ← discard_mapM_mapConstM,
    ← discard_mapM_mapConstM]
  simp only [mapConstM, discard_eq_bind, bind_assoc, pure_bind]

theorem Query.discard_mapConstM (query : Query κ) :
    discard (query.mapConstM f) = forM query.constants fun k => discard (f k) := by
  rw [constants, ← discard_mapM_mapConstM]
  simp only [mapConstM, discard_eq_bind, bind_assoc, pure_bind]

theorem run_discard_eq_ok_iff {ε σ α : Type} {x : ExceptT ε (StateM σ) α} {s s' : σ} :
    (discard x).run s = (.ok (), s') ↔ ∃ a, x.run s = (.ok a, s') := by
  rw [discard_eq_bind]
  constructor
  · intro h
    cases hx : x.run s with
    | mk result s₁ =>
      cases result with
      | error e =>
        rw [run_bind_of_error hx] at h
        cases h
      | ok a =>
        rw [run_bind_of_ok hx] at h
        cases h
        exact ⟨a, rfl⟩
  · rintro ⟨a, hx⟩
    exact run_bind_of_ok hx _

end Effects

/-! ## Interning new names -/

namespace Registry

variable {r r₁ r' : Registry}

/-- The second registry has, after all entities of the first, one individual for each name, with
    the next identifiers. -/
structure AddsIndividuals (r : Registry) (names : List String) (r' : Registry) : Prop where
  built : r'.Built
  added : ∃ ids : List EntityId,
    ids.map EntityId.toNat = List.range' (r.all.length + 1) names.length ∧
      r'.all = r.all ++ ids.zipWith (fun id name => ⟨id, .individual, name⟩) names

theorem AddsIndividuals.refl (h : r.Built) : r.AddsIndividuals [] r :=
  ⟨h, [], rfl, (List.append_nil _).symm⟩

theorem AddsIndividuals.cons {id : EntityId} {name : String} {names : List String}
    (hall : r₁.all = r.all ++ [⟨id, .individual, name⟩]) (hid : id.toNat = r.all.length + 1)
    (h : r₁.AddsIndividuals names r') : r.AddsIndividuals (name :: names) r' := by
  obtain ⟨hbuilt, ids, hids, hadded⟩ := h
  rw [hall, List.length_append, List.length_singleton] at hids
  refine ⟨hbuilt, id :: ids, ?_, ?_⟩
  · rw [List.map_cons, hids, hid, List.length_cons, List.range'_succ]
  · rw [hadded, hall, List.zipWith_cons_cons, List.append_assoc, List.singleton_append]

/-- The names without an entity, each where it occurs first. -/
def unregistered (r : Registry) (names : List String) : List String :=
  (names.filter fun name => r.ids[name]? = none).eraseDups

theorem mem_unregistered {name : String} {names : List String} :
    name ∈ r.unregistered names ↔ name ∈ names ∧ r.ids[name]? = none := by
  rw [unregistered, List.mem_eraseDups, List.mem_filter, decide_eq_true_iff]

theorem unregistered_cons_of_mem {name : String} {id : EntityId} (h : r.ids[name]? = some id)
    (names : List String) : r.unregistered (name :: names) = r.unregistered names := by
  rw [unregistered, List.filter_cons_of_neg (by simp [h]), unregistered]

theorem unregistered_cons_of_new (hr : r.WellFormed) (hr₁ : r₁.WellFormed) {id : EntityId}
    {kind : EntityKind} {name : String} (hnew : r.ids[name]? = none)
    (hall : r₁.all = r.all ++ [⟨id, kind, name⟩]) (names : List String) :
    r.unregistered (name :: names) = name :: r₁.unregistered names := by
  have hids (other : String) : r₁.ids[other]? = none ↔ other ≠ name ∧ r.ids[other]? = none := by
    rw [hr₁.ids_eq_none_iff, hr.ids_eq_none_iff, hall, List.forall_mem_append,
      List.forall_mem_singleton, and_comm]
    exact and_congr_left' ne_comm
  rw [unregistered, List.filter_cons_of_pos (by simpa using hnew), List.eraseDups_cons,
    List.filter_filter, unregistered]
  refine congrArg (fun l => name :: List.eraseDups l) (List.filter_congr fun other _ => ?_)
  rw [Bool.eq_iff_iff, Bool.and_eq_true, decide_eq_true_iff, decide_eq_true_iff, hids]
  simp

theorem run_discard_intern {name : String} {id : EntityId}
    (h : r.intern name .individual = (.ok id, r₁)) :
    (discard (Constant.fresh name).intern).run r = (.ok (), r₁) :=
  run_discard_eq_ok_iff.2 ⟨id, h⟩

/-- Interning new names one by one is not refused when there are identifiers for all of them and
    none of them is the name of something else. -/
theorem Built.forM_intern (h : r.Built) (constants : List Constant)
    (hkind : ∀ name, .fresh name ∈ constants → ∀ e ∈ r.all, e.name = name → e.kind = .individual)
    (hroom : (r.unregistered (constants.filterMap Constant.fresh?)).length ≤ r.unused) :
    ∃ r', (forM constants fun c => discard c.intern : RegistryM Unit).run r = (.ok (), r') ∧
      r.AddsIndividuals (r.unregistered (constants.filterMap Constant.fresh?)) r' := by
  induction constants generalizing r with
  | nil => exact ⟨r, rfl, .refl h⟩
  | cons c constants ih =>
    have hkindRest : ∀ name, .fresh name ∈ constants →
        ∀ e ∈ r.all, e.name = name → e.kind = .individual :=
      fun name hname => hkind name (List.mem_cons_of_mem _ hname)
    cases c with
    | known id => exact ih h hkindRest hroom
    | fresh name =>
      rw [List.forM_cons]
      rw [List.filterMap_cons, Constant.fresh?] at hroom ⊢
      dsimp only at hroom ⊢
      rcases h.wellFormed.intern_cases name .individual with ⟨e, he, rfl, -, hrun⟩ |
        ⟨e, he, hname, hother, -⟩ | ⟨id, r₁, hnew, hrun, hr₁, hall, hid⟩ | ⟨hnew, hfull, -⟩
      · have hids := (h.wellFormed.ids_iff _ _).2 ⟨e, he, rfl, rfl⟩
        rw [unregistered_cons_of_mem hids] at hroom ⊢
        obtain ⟨r', hrest, hadds⟩ := ih h hkindRest hroom
        refine ⟨r', ?_, hadds⟩
        rw [run_bind_of_ok (run_discard_intern hrun)]
        exact hrest
      · exact absurd (hkind name List.mem_cons_self e he hname) hother
      · have hkind₁ : ∀ name, .fresh name ∈ constants →
            ∀ e ∈ r₁.all, e.name = name → e.kind = .individual := by
          intro name' hname'
          rw [hall, List.forall_mem_append, List.forall_mem_singleton]
          exact ⟨hkindRest name' hname', fun _ => rfl⟩
        rw [unregistered_cons_of_new h.wellFormed hr₁ hnew hall] at hroom ⊢
        rw [List.length_cons, hr₁.unused_of_append hall] at hroom
        obtain ⟨r', hrest, hadds⟩ :=
          ih (h.of_intern hrun) hkind₁ (Nat.le_of_succ_le_succ hroom)
        refine ⟨r', ?_, .cons hall hid hadds⟩
        rw [run_bind_of_ok (run_discard_intern hrun)]
        exact hrest
      · -- a new name needs an identifier, and there is none
        have hmem : name ∈ r.unregistered (name :: constants.filterMap Constant.fresh?) :=
          mem_unregistered.2 ⟨List.mem_cons_self, hnew⟩
        have hpos := List.length_pos_of_mem hmem
        rw [unused, hfull] at hroom
        omega

/-- Names that mean nothing have no entity, so all of them are registered. -/
theorem Built.forM_intern_of_offers (h : r.Built) {constants : List Constant}
    (hoffers : ∀ c ∈ constants, r.Offers c)
    (hroom : (freshNames constants).length ≤ r.unused) :
    ∃ r', (forM constants fun c => discard c.intern : RegistryM Unit).run r = (.ok (), r') ∧
      r.AddsIndividuals (freshNames constants) r' := by
  have hnew : ∀ name, .fresh name ∈ constants → r.ids[name]? = none := fun name hname =>
    (of_resolve_notFound (hoffers _ hname)).1
  have hall : r.unregistered (constants.filterMap Constant.fresh?) = freshNames constants := by
    rw [unregistered, freshNames, List.filter_eq_self.2]
    intro name hname
    obtain ⟨c, hc, hfresh⟩ := List.mem_filterMap.1 hname
    cases c with
    | known id => cases hfresh
    | fresh _ =>
      cases hfresh
      simpa using hnew name hc
  rw [← hall] at hroom ⊢
  refine h.forM_intern constants (fun name hname e he heq => ?_) hroom
  exact absurd heq ((h.wellFormed.ids_eq_none_iff.1 (hnew name hname)) e he)

/-- The second step of reading is not refused once it has begun. -/
theorem Built.commit_of_ok {α β : Type} {constants : α → List Constant} {intern : α → RegistryM β}
    (h : r.Built)
    (hintern : ∀ draft, discard (intern draft) = forM (constants draft) fun c => discard c.intern)
    {draft : α} {reading : RuleText.Reading α}
    (hreading : RuleText.Follows r
      (fun met draft => freshNames met = freshNames (constants draft)) (.ok draft) reading)
    (hoffers : ∀ c ∈ constants draft, r.Offers c)
    (hroom : (freshNames (constants draft)).length ≤ r.unused) :
    ∃ b r', commit intern r reading = (.ok b, r') ∧
      r.AddsIndividuals (freshNames (constants draft)) r' := by
  obtain ⟨r', hrun, hadds⟩ := h.forM_intern_of_offers hoffers hroom
  rw [← hintern] at hrun
  obtain ⟨b, hb⟩ := run_discard_eq_ok_iff.1 hrun
  exact ⟨b, r', (commit_eq_ok_iff hreading).2 ⟨draft, rfl, hroom, hb⟩, hadds⟩

/-- What becomes of a registry when a text that writes these constants is read with it: nothing if
    the text is refused, and otherwise the constants that meant nothing become individuals. -/
def Registers {α : Type} (r : Registry) (written : Except TextError (List String)) :
    Except Error α × Registry → Prop
  | (.error _, r') => r' = r
  | (.ok _, r') => ∃ names, written = .ok names ∧ r.AddsIndividuals (r.newNames names) r'

theorem Built.registers_commit {α β : Type} {constants : α → List Constant}
    {intern : α → RegistryM β} {written : Except TextError (List String)}
    {plain : Except Error α} {reading : RuleText.Reading α} (h : r.Built)
    (hintern : ∀ draft, discard (intern draft) = forM (constants draft) fun c => discard c.intern)
    (hreading : RuleText.Follows r
      (fun met draft => freshNames met = freshNames (constants draft)) plain reading)
    (hoffers : ∀ draft, plain = .ok draft → ∀ c ∈ constants draft, r.Offers c)
    (hwritten : ∀ draft, plain = .ok draft →
      ∃ names, written = .ok names ∧ freshNames (constants draft) = r.newNames names) :
    r.Registers written (commit intern r reading) := by
  rcases commit_cases hreading intern with ⟨draft, rfl, hroom, -⟩ | ⟨e, hcommit, -⟩
  · obtain ⟨names, hnames, hfresh⟩ := hwritten draft rfl
    obtain ⟨b, r', hcommit, hadds⟩ := h.commit_of_ok hintern hreading (hoffers draft rfl) hroom
    rw [hcommit]
    exact ⟨names, hnames, hfresh ▸ hadds⟩
  · rw [hcommit]
    rfl

end Registry

theorem constants_of_proper {κ : Type} {K : κ → Prop} {r : Registry} {atoms : List (Atom κ)}
    (h : ∀ a ∈ atoms, a.Proper r K) : ∀ c ∈ atoms.flatMap Atom.constants, K c := by
  intro c hc
  obtain ⟨a, ha, hca⟩ := List.mem_flatMap.1 hc
  obtain ⟨t, ht, hconst⟩ := List.mem_filterMap.1 hca
  cases t with
  | const k =>
    cases hconst
    exact (h a ha).terms _ ht
  | var v => cases hconst

theorem RuleText.offers_of_readRule {r : Registry} {name text : String} {draft : Rule Constant}
    (h : readRule r (checked r) name text = .ok draft) : ∀ c ∈ draft.constants, r.Offers c := by
  obtain ⟨-, -, -, -, hproper⟩ := of_readRule h
  exact constants_of_proper hproper

theorem RuleText.offers_of_readQuery {r : Registry} {name text : String} {draft : Query Constant}
    (h : readQuery r (checked r) name text = .ok draft) : ∀ c ∈ draft.constants, r.Offers c := by
  obtain ⟨-, -, -, hproper, -⟩ := of_readQuery h
  exact constants_of_proper hproper

/-- **Reading a text is all or nothing.** A text that is refused leaves the registry as it was. One
    that is accepted adds the constants that it writes and that meant nothing: each once, as an
    individual, with the next identifiers, in the order of their first occurrence. -/
theorem parse_registers {r : Registry} (hbuilt : r.Built) (name text : String) :
    r.Registers (RuleText.ruleConstants text) (Rule.parse r name text) ∧
      r.Registers (RuleText.queryConstants text) (Query.parse r name text) := by
  have hindexed := hbuilt.wellFormed.indexed
  constructor
  · exact hbuilt.registers_commit (Rule.discard_mapConstM _)
      (RuleText.follows_readRule hindexed name text)
      (fun _ => RuleText.offers_of_readRule) fun _ => RuleText.freshNames_of_readRule
  · exact hbuilt.registers_commit (Query.discard_mapConstM _)
      (RuleText.follows_readQuery hindexed name text)
      (fun _ => RuleText.offers_of_readQuery) fun _ => RuleText.freshNames_of_readQuery

namespace Places

/-! A rule with two new names, of which one is written twice and the other is quoted, and one that
is refused for its head. -/

def twice : String :=
  "locatedIn(?x, Lyon) ^ locatedIn(?x, \"Paris\"^^xsd:string) -> locatedIn(?x, #Lyon)"

def unbound : String := "locatedIn(?x, Lyon) -> Place(?y)"

theorem isNew_lyon : ∀ e ∈ registry.all, e.name ≠ "Lyon" ∧ e.localName ≠ "Lyon" := by
  rw [built_registry.2]
  decide

theorem isNew_paris : ∀ e ∈ registry.all, e.name ≠ "Paris" ∧ e.localName ≠ "Paris" := by
  rw [built_registry.2]
  decide

theorem newNames_cities : registry.newNames ["Lyon", "Paris", "Lyon"] = ["Lyon", "Paris"] ∧
    registry.newNames ["Lyon"] = ["Lyon"] := by
  have hr := built_registry.1.wellFormed
  simp only [Registry.newNames, List.filter_cons, hr.resolve_eq_notFound isNew_lyon,
    hr.resolve_eq_notFound isNew_paris]
  exact ⟨rfl, rfl⟩

theorem readRule_twice : RuleText.readRule registry (RuleText.checked registry) "r" twice =
    .ok ⟨"r", [.link locatedIn (.var ⟨"x"⟩) (.const (.fresh "Lyon")),
        .link locatedIn (.var ⟨"x"⟩) (.const (.fresh "Paris"))],
      [.link locatedIn (.var ⟨"x"⟩) (.const (.fresh "Lyon"))]⟩ := by
  obtain ⟨hlyonText, hlyon⟩ := @atom_locatedIn "Lyon" isNew_lyon "Lyon"
    (by decide) rfl (by decide) twice
  obtain ⟨hparisText, hparis⟩ := @atom_locatedIn "Paris" isNew_paris "\"Paris\"^^xsd:string"
    (by decide) rfl (by decide) twice
  obtain ⟨hhashText, hhash⟩ := @atom_locatedIn "Lyon" isNew_lyon "#Lyon"
    (by decide) rfl (by decide) twice
  rw [RuleText.readRule_append _ registry "r"
    (List.forall_mem_cons.2 ⟨hlyonText, List.forall_mem_singleton.2 hparisText⟩)
    (List.cons_ne_nil _ _) (List.forall_mem_singleton.2 hhashText) (List.cons_ne_nil _ _)
    (show twice = _ from rfl)]
  simp only [List.mapM_cons, List.mapM_nil, hlyon, hparis, hhash]
  rfl

theorem parse_twice : ∃ rule r', Rule.parse registry "r" twice = (.ok rule, r') := by
  have hroom : 2 ≤ registry.unused := by
    rw [Registry.unused, built_registry.2]
    decide
  have hreading := RuleText.follows_readRule built_registry.1.wellFormed.indexed "r" twice
  rw [readRule_twice] at hreading
  obtain ⟨rule, r', hparse, -⟩ := built_registry.1.commit_of_ok
    (Rule.discard_mapConstM Constant.intern) hreading
    (RuleText.offers_of_readRule readRule_twice) hroom
  exact ⟨rule, r', hparse⟩

theorem parse_unbound :
    (Rule.parse registry "r" unbound).1 = .error (.rule (.unboundHead "r" ⟨"y"⟩)) := by
  obtain ⟨hbuilt, hall⟩ := built_registry
  have hindexed := hbuilt.wellFormed.indexed
  have hget := get?_of_all hall place
  have hargs : ∀ a ∈ ["?y"], IsArgument a.toList := List.forall_mem_singleton.2 (by decide)
  obtain ⟨hlyonText, hlyon⟩ := @atom_locatedIn "Lyon" isNew_lyon "Lyon"
    (by decide) rfl (by decide) unbound
  -- the body claims an identifier for its new name before the head is refused
  have hbody := RuleText.follows_atom hindexed unbound
    (Registry.application "locatedIn" ["?x", "Lyon"]).toList
  rw [hlyon] at hbody
  have hhead : RuleText.atom registry (RuleText.constant registry) unbound
      (Registry.application "Place" ["?y"]).toList = pure (.member place (.var ⟨"y"⟩)) := by
    rw [RuleText.atom_application _ registry isPredicateName_place.toIsAtomName hargs,
      if_neg (by decide)]
    exact RuleText.relationalAtom_cls _ (hbuilt.wellFormed.resolve_name hget)
      (by rw [Registry.kind?, hget]; rfl) _
  have hclaim := (RuleText.claims_start registry).claim_fresh "Lyon"
  have hroom : ([] : List String).length < registry.unused := one_le_unused_registry
  rw [if_neg List.not_mem_nil, if_pos hroom] at hclaim
  obtain ⟨met, hclaim, -⟩ := hclaim
  rw [Rule.parse, commit, RuleText.readRule_append _ registry "r"
    (List.forall_mem_singleton.2 hlyonText) (List.cons_ne_nil _ _)
    (List.forall_mem_singleton.2 (.application isPredicateName_place.toIsAtomName hargs))
    (List.cons_ne_nil _ _) (show unbound = _ from rfl)]
  have hconstants : (Atom.link locatedIn (.var ⟨"x"⟩) (.const (.fresh "Lyon"))).constants =
      [Constant.fresh "Lyon"] := rfl
  simp only [List.mapM_cons, List.mapM_nil, hbody.eq_of_ok, hhead, hconstants, List.forM_cons,
    List.forM_nil, bind_assoc, pure_bind, StateT.run_bind, hclaim]
  rfl

end Places

/-- Two new names are registered in the order of the text, one of them once although it is written
    twice; a rule that is refused for its head leaves the registry as it was, although its body
    has a new name. -/
theorem parse_registers_places :
    Places.registry.Built ∧
      (∃ rule r', Rule.parse Places.registry "r" Places.twice = (.ok rule, r') ∧
        Places.registry.AddsIndividuals ["Lyon", "Paris"] r') ∧
      Rule.parse Places.registry "r" Places.unbound =
        (.error (.rule (.unboundHead "r" ⟨"y"⟩)), Places.registry) ∧
      ∃ query r', Query.parse Places.registry "q" "locatedIn(?x, Lyon) -> sqwrl:select(?x)" =
          (.ok query, r') ∧
        Places.registry.AddsIndividuals ["Lyon"] r' := by
  have hbuilt := Places.built_registry.1
  refine ⟨hbuilt, ?_, ?_, ?_⟩
  · obtain ⟨rule, r', hparse⟩ := Places.parse_twice
    have hregisters := (parse_registers hbuilt "r" Places.twice).1
    rw [hparse] at hregisters
    obtain ⟨names, hnames, hadds⟩ := hregisters
    have hwritten : RuleText.ruleConstants Places.twice = .ok ["Lyon", "Paris", "Lyon"] := by
      decide +kernel
    obtain rfl := Except.ok.inj (hwritten.symm.trans hnames)
    exact ⟨rule, r', hparse, Places.newNames_cities.1 ▸ hadds⟩
  · have hregisters := (parse_registers hbuilt "r" Places.unbound).1
    cases hparse : Rule.parse Places.registry "r" Places.unbound with
    | mk result r' =>
      have hresult := Places.parse_unbound
      rw [hparse] at hregisters hresult
      cases hresult
      exact Prod.ext rfl hregisters
  · have hparse := @Places.parse_query "Lyon" Places.isNew_lyon "Lyon"
      (by decide) rfl (by decide)
      "locatedIn(?x, Lyon) -> sqwrl:select(?x)" rfl
    have hregisters := (parse_registers hbuilt "q" "locatedIn(?x, Lyon) -> sqwrl:select(?x)").2
    rw [hparse] at hregisters
    obtain ⟨names, hnames, hadds⟩ := hregisters
    have hwritten : RuleText.queryConstants "locatedIn(?x, Lyon) -> sqwrl:select(?x)" =
        .ok ["Lyon"] := by
      decide +kernel
    obtain rfl := Except.ok.inj (hwritten.symm.trans hnames)
    exact ⟨_, _, hparse, Places.newNames_cities.2 ▸ hadds⟩

end HornOntology
