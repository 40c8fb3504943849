import HornOntology.Proofs.Lists
import HornOntology.Proofs.Model
import HornOntology.Proofs.Registry

set_option autoImplicit false

/-! # What a registry makes of the names it is given

A registry comes to be by interning names, one call after the other. As long as there are
identifiers, its list of entities is the sequence of the calls that were granted, with later
repetitions dropped, and every answer of the registry is one about that list (`Lawful`):
identifiers count its places, `lookup` and `name` are inverse to each other, interning adds at most
one entity at its end, and `resolve` finds the entity with a name, or else the only one with that
local name. No call changes an entity that is registered already (`internAll_lawful`). -/

namespace HornOntology.Registry

/-- The entities with a local name, by identifier. -/
def sharing (r : Registry) (name : String) : List Entity :=
  r.all.filter fun e => e.localName = name

theorem mem_sharing_iff {r : Registry} {name : String} {e : Entity} :
    e ∈ r.sharing name ↔ e ∈ r.all ∧ e.localName = name := by
  rw [sharing, List.mem_filter, decide_eq_true_iff]

/-- The answers of a registry are those of its list of entities. -/
structure Lawful (r : Registry) : Prop where
  /-- The identifiers are 1, 2, … in the order of the list. -/
  ids_eq : r.all.map (fun e => e.id.toNat) = List.range' 1 r.all.length
  names_nodup : (r.all.map Entity.name).Nodup
  get?_iff : ∀ id e, r.get? id = some e ↔ e ∈ r.all ∧ e.id = id
  lookup_name : ∀ e ∈ r.all, r.name e.id = e.name ∧ r.lookup e.name = .ok e.id
  name_lookup : ∀ name id, r.lookup name = .ok id → r.name id = name ∧ ∃ e ∈ r.all, e.id = id
  ofKind_eq : ∀ kind,
    r.ofKind kind = (r.all.map Entity.id).filter fun id => r.kind? id = some kind
  /-- Interning is granted for a new name, and for a known one with its own kind. -/
  intern_ok_iff : ∀ name kind, (r.intern name kind).1 ≠ .error .exhausted →
    ((r.intern name kind).1.isOk ↔
      (∀ e ∈ r.all, e.name ≠ name) ∨ ∃ e ∈ r.all, e.name = name ∧ e.kind = kind)
  intern_known : ∀ e ∈ r.all, r.intern e.name e.kind = (.ok e.id, r)
  intern_new : ∀ name kind, (r.intern name kind).1 ≠ .error .exhausted →
    (∀ e ∈ r.all, e.name ≠ name) → ∃ id, (r.intern name kind).1 = .ok id ∧
      id.toNat = r.all.length + 1 ∧ (r.intern name kind).2.all = r.all ++ [⟨id, kind, name⟩]
  intern_conflict : ∀ name kind conflicting existing requested,
    (r.intern name kind).1 = .error (.kindConflict conflicting existing requested) →
      (r.intern name kind).2 = r
  /-- A qualified name comes first, and then a local name that only one entity has. -/
  resolve_ok_iff : ∀ name id, r.resolve name = .ok id ↔
    (∃ e ∈ r.all, e.name = name ∧ e.id = id) ∨
      (∀ e ∈ r.all, e.name ≠ name) ∧
        ∃ e ∈ r.all, e.id = id ∧ e.localName = name ∧ ∀ e' ∈ r.all, e'.localName = name → e' = e
  resolve_ambiguous_iff : ∀ name shown candidates,
    r.resolve name = .error (.ambiguous shown candidates) ↔
      (∀ e ∈ r.all, e.name ≠ name) ∧ 2 ≤ (r.sharing name).length ∧ shown = name ∧
        candidates = (r.sharing name).map Entity.name
  resolve_notFound_iff : ∀ name shown, r.resolve name = .error (.notFound shown) ↔
    (∀ e ∈ r.all, e.name ≠ name ∧ e.localName ≠ name) ∧ shown = name

namespace WellFormed

variable {r : Registry} (h : r.WellFormed)

include h

/-! ## Identifiers and names -/

theorem map_id_eq : r.all.map (fun e => e.id.toNat) = List.range' 1 r.all.length := by
  refine List.ext_getElem? fun i => ?_
  rw [List.getElem?_map]
  cases he : r.all[i]? with
  | none =>
    rw [Option.map_none, List.getElem?_eq_none]
    simpa using he
  | some e =>
    obtain ⟨hlt, -⟩ := List.getElem?_eq_some_iff.1 he
    rw [Option.map_some, h.id_eq i e he, List.getElem?_range' hlt, one_mul, add_comm]

/-- No two entities share a name, since a name has one identifier. -/
theorem nodup_map_name : (r.all.map Entity.name).Nodup := by
  have hids : (r.all.map fun e => e.id.toNat).Nodup := h.map_id_eq ▸ List.nodup_range'
  refine hids.of_map.map_on fun e he e' he' hname => ?_
  have hid : r.ids[e'.name]? = some e.id := (h.ids_iff _ _).2 ⟨e, he, hname, rfl⟩
  rw [(h.ids_iff _ _).2 ⟨e', he', rfl, rfl⟩] at hid
  exact List.inj_on_of_nodup_map hids he he' (congrArg EntityId.toNat (Option.some.inj hid).symm)

theorem get?_id {e : Entity} (he : e ∈ r.all) : r.get? e.id = some e :=
  h.get?_eq_some_iff.2 ⟨he, rfl⟩

theorem lookup_eq_ok_iff {name : String} {id : EntityId} :
    r.lookup name = .ok id ↔ ∃ e ∈ r.all, e.name = name ∧ e.id = id := by
  rw [← h.ids_iff, lookup]
  cases r.ids[name]? with
  | none => simp
  | some found => simp

theorem ofKind_eq_filter (kind : EntityKind) :
    r.ofKind kind = (r.all.map Entity.id).filter fun id => r.kind? id = some kind := by
  rw [ofKind, List.filter_map]
  refine congrArg (List.map Entity.id) (List.filter_congr fun e he => ?_)
  rw [Function.comp_apply, kind?, h.get?_id he, Option.map_some]
  simp

/-! ## Resolving -/

theorem sharing_eq_singleton_iff {name : String} {e : Entity} :
    r.sharing name = [e] ↔
      e ∈ r.all ∧ e.localName = name ∧ ∀ e' ∈ r.all, e'.localName = name → e' = e := by
  have hnodup : (r.sharing name).Nodup := h.nodup_map_name.of_map.filter _
  constructor
  · intro hone
    have hmem {e' : Entity} : e' = e ↔ e' ∈ r.all ∧ e'.localName = name := by
      rw [← mem_sharing_iff, hone, List.mem_singleton]
    obtain ⟨he, hlocal⟩ := hmem.1 rfl
    exact ⟨he, hlocal, fun e' he' hlocal' => hmem.2 ⟨he', hlocal'⟩⟩
  · rintro ⟨he, hlocal, honly⟩
    by_contra hne
    rcases (hnodup.ne_singleton_iff e).1 hne with hnil | ⟨e', he', hother⟩
    · exact List.ne_nil_of_mem (mem_sharing_iff.2 ⟨he, hlocal⟩) hnil
    · obtain ⟨hall, hlocal'⟩ := mem_sharing_iff.1 he'
      exact hother (honly e' hall hlocal')

/-- All that resolving does: it finds the qualified name, or else nobody, one or several with that
    local name. -/
theorem resolve_cases (name : String) :
    (∃ e ∈ r.all, e.name = name ∧ r.resolve name = .ok e.id) ∨
    (∀ e ∈ r.all, e.name ≠ name) ∧
      (r.sharing name = [] ∧ r.resolve name = .error (.notFound name) ∨
      (∃ e, r.sharing name = [e] ∧ r.resolve name = .ok e.id) ∨
      2 ≤ (r.sharing name).length ∧
        r.resolve name = .error (.ambiguous name ((r.sharing name).map Entity.name))) := by
  by_cases hold : ∃ e ∈ r.all, e.name = name
  · obtain ⟨e, he, rfl⟩ := hold
    exact .inl ⟨e, he, rfl, h.resolve_name (h.get?_id he)⟩
  have hnew : ∀ e ∈ r.all, e.name ≠ name := fun e he hname => hold ⟨e, he, hname⟩
  have hgroup : (r.byLocalName.get name).toList = (r.sharing name).map Entity.id := h.group_eq name
  have hnames : ((r.sharing name).map Entity.id).map r.name = (r.sharing name).map Entity.name := by
    rw [List.map_map]
    exact List.map_congr_left fun e he => name_eq (h.get?_id (mem_sharing_iff.1 he).1)
  refine .inr ⟨hnew, ?_⟩
  rw [resolve, h.ids_eq_none_iff.2 hnew, hgroup]
  rcases hes : r.sharing name with _ | ⟨e, _ | ⟨e', es⟩⟩
  · exact .inl ⟨rfl, rfl⟩
  · exact .inr (.inl ⟨e, rfl, rfl⟩)
  · rw [hes] at hnames
    rw [← hnames]
    exact .inr (.inr ⟨Nat.le_add_left 2 es.length, rfl⟩)

theorem resolve_eq_ok_iff {name : String} {id : EntityId} :
    r.resolve name = .ok id ↔
      (∃ e ∈ r.all, e.name = name ∧ e.id = id) ∨
        (∀ e ∈ r.all, e.name ≠ name) ∧ ∃ e ∈ r.all, e.id = id ∧ e.localName = name ∧
          ∀ e' ∈ r.all, e'.localName = name → e' = e := by
  constructor
  · intro hid
    rcases h.resolve_cases name with ⟨e, he, hname, hok⟩ |
      ⟨hnew, ⟨-, hnone⟩ | ⟨e, hone, hok⟩ | ⟨-, hmany⟩⟩
    · exact .inl ⟨e, he, hname, Except.ok.inj (hok.symm.trans hid)⟩
    · cases hnone.symm.trans hid
    · obtain ⟨he, hlocal, honly⟩ := h.sharing_eq_singleton_iff.1 hone
      exact .inr ⟨hnew, e, he, Except.ok.inj (hok.symm.trans hid), hlocal, honly⟩
    · cases hmany.symm.trans hid
  · rintro (⟨e, he, rfl, rfl⟩ | ⟨hnew, e, he, rfl, hlocal, honly⟩)
    · exact h.resolve_name (h.get?_id he)
    · have hone := h.sharing_eq_singleton_iff.2 ⟨he, hlocal, honly⟩
      rcases h.resolve_cases name with ⟨e', he', hname, -⟩ |
        ⟨-, ⟨hnil, -⟩ | ⟨e', hone', hok⟩ | ⟨htwo, -⟩⟩
      · exact absurd hname (hnew e' he')
      · simp [hone] at hnil
      · obtain rfl : e = e' := by simpa using hone.symm.trans hone'
        exact hok
      · simp [hone] at htwo

theorem resolve_eq_ambiguous_iff {name shown : String} {candidates : List String} :
    r.resolve name = .error (.ambiguous shown candidates) ↔
      (∀ e ∈ r.all, e.name ≠ name) ∧ 2 ≤ (r.sharing name).length ∧ shown = name ∧
        candidates = (r.sharing name).map Entity.name := by
  constructor
  · intro hres
    rcases h.resolve_cases name with ⟨e, -, -, hok⟩ |
      ⟨hnew, ⟨-, hnone⟩ | ⟨e, -, hok⟩ | ⟨htwo, hmany⟩⟩
    · cases hok.symm.trans hres
    · cases hnone.symm.trans hres
    · cases hok.symm.trans hres
    · cases hmany.symm.trans hres
      exact ⟨hnew, htwo, rfl, rfl⟩
  · rintro ⟨hnew, htwo, rfl, rfl⟩
    rcases h.resolve_cases shown with ⟨e, he, hname, -⟩ |
      ⟨-, ⟨hnil, -⟩ | ⟨e, hone, -⟩ | ⟨-, hmany⟩⟩
    · exact absurd hname (hnew e he)
    · simp [hnil] at htwo
    · simp [hone] at htwo
    · exact hmany

theorem resolve_eq_notFound_iff {name shown : String} :
    r.resolve name = .error (.notFound shown) ↔
      (∀ e ∈ r.all, e.name ≠ name ∧ e.localName ≠ name) ∧ shown = name := by
  constructor
  · intro hres
    rcases h.resolve_cases name with ⟨e, -, -, hok⟩ |
      ⟨hnew, ⟨hnil, hnone⟩ | ⟨e, -, hok⟩ | ⟨-, hmany⟩⟩
    · cases hok.symm.trans hres
    · cases hnone.symm.trans hres
      refine ⟨fun e he => ⟨hnew e he, fun hlocal => ?_⟩, rfl⟩
      exact List.ne_nil_of_mem (mem_sharing_iff.2 ⟨he, hlocal⟩) hnil
    · cases hok.symm.trans hres
    · cases hmany.symm.trans hres
  · rintro ⟨hnew, rfl⟩
    exact h.resolve_eq_notFound hnew

/-! ## Interning -/

theorem intern_isOk_iff {name : String} {kind : EntityKind}
    (hleft : (r.intern name kind).1 ≠ .error .exhausted) :
    (r.intern name kind).1.isOk ↔
      (∀ e ∈ r.all, e.name ≠ name) ∨ ∃ e ∈ r.all, e.name = name ∧ e.kind = kind := by
  rcases h.intern_cases name kind with ⟨e, he, hname, hkind, hrun⟩ |
    ⟨e, he, rfl, hkind, hrun⟩ | ⟨id, r', hnew, hrun, -⟩ | ⟨-, -, hrun⟩
  · rw [hrun]
    exact iff_of_true rfl (.inr ⟨e, he, hname, hkind⟩)
  · rw [hrun]
    refine iff_of_false Bool.false_ne_true ?_
    rintro (hnew | ⟨e', he', hname, rfl⟩)
    · exact hnew e he rfl
    · have heq : e = e' := List.inj_on_of_nodup_map h.nodup_map_name he he' hname.symm
      exact hkind (congrArg Entity.kind heq)
  · rw [hrun]
    exact iff_of_true rfl (.inl (h.ids_eq_none_iff.1 hnew))
  · exact absurd hrun hleft

theorem intern_of_new {name : String} {kind : EntityKind}
    (hleft : (r.intern name kind).1 ≠ .error .exhausted) (hnew : ∀ e ∈ r.all, e.name ≠ name) :
    ∃ id, (r.intern name kind).1 = .ok id ∧ id.toNat = r.all.length + 1 ∧
      (r.intern name kind).2.all = r.all ++ [⟨id, kind, name⟩] := by
  rcases h.intern_cases name kind with ⟨e, he, hname, -⟩ | ⟨e, he, hname, -⟩ |
    ⟨id, r', -, hrun, -, hall, hid⟩ | ⟨-, -, hrun⟩
  · exact absurd hname (hnew e he)
  · exact absurd hname (hnew e he)
  · rw [hrun]
    exact ⟨id, rfl, hid, hall⟩
  · exact absurd hrun hleft

theorem intern_snd_of_conflict {name conflicting : String} {kind existing requested : EntityKind}
    (hconflict : (r.intern name kind).1 = .error (.kindConflict conflicting existing requested)) :
    (r.intern name kind).2 = r := by
  rcases h.intern_cases name kind with ⟨e, -, -, -, hrun⟩ | ⟨e, -, -, -, hrun⟩ |
    ⟨id, r', -, hrun, -⟩ | ⟨-, -, hrun⟩
  · rw [hrun]
  · rw [hrun]
  · simp [hrun] at hconflict
  · cases hrun.symm.trans hconflict

theorem lawful : r.Lawful where
  ids_eq := h.map_id_eq
  names_nodup := h.nodup_map_name
  get?_iff _ _ := h.get?_eq_some_iff
  lookup_name e he := ⟨name_eq (h.get?_id he), h.lookup_eq_ok_iff.2 ⟨e, he, rfl, rfl⟩⟩
  name_lookup name id hid := by
    obtain ⟨e, he, rfl, rfl⟩ := h.lookup_eq_ok_iff.1 hid
    exact ⟨name_eq (h.get?_id he), e, he, rfl⟩
  ofKind_eq := h.ofKind_eq_filter
  intern_ok_iff _ _ := h.intern_isOk_iff
  intern_known e he := by rw [h.intern_name he, if_pos rfl]
  intern_new _ _ := h.intern_of_new
  intern_conflict _ _ _ _ _ := h.intern_snd_of_conflict
  resolve_ok_iff _ _ := h.resolve_eq_ok_iff
  resolve_ambiguous_iff _ _ _ := h.resolve_eq_ambiguous_iff
  resolve_notFound_iff _ _ := h.resolve_eq_notFound_iff

end WellFormed

/-! ## Interning in sequence -/

/-- Intern names one after the other: the result of each call, and the registry afterwards. -/
def internAll : Registry → List (String × EntityKind) →
    List (Except RegistryError EntityId) × Registry
  | r, [] => ([], r)
  | r, (name, kind) :: calls =>
    let step := r.intern name kind
    let rest := step.2.internAll calls
    (step.1 :: rest.1, rest.2)

/-- The calls that were granted, given the results of all calls. -/
def granted (calls : List (String × EntityKind)) (results : List (Except RegistryError EntityId)) :
    List (String × EntityKind) :=
  ((calls.zip results).filter fun call => call.2.isOk).map Prod.fst

/-- The name and the kind of each entity, by identifier. -/
def declared (r : Registry) : List (String × EntityKind) := r.all.map fun e => (e.name, e.kind)

theorem internAll_cons (r : Registry) (name : String) (kind : EntityKind)
    (calls : List (String × EntityKind)) :
    r.internAll ((name, kind) :: calls) =
      ((r.intern name kind).1 :: ((r.intern name kind).2.internAll calls).1,
        ((r.intern name kind).2.internAll calls).2) := rfl

theorem internAll_append (r : Registry) (calls calls' : List (String × EntityKind)) :
    r.internAll (calls ++ calls') =
      ((r.internAll calls).1 ++ ((r.internAll calls).2.internAll calls').1,
        ((r.internAll calls).2.internAll calls').2) := by
  induction calls generalizing r with
  | nil => rfl
  | cons call calls ih =>
    rw [List.cons_append, internAll_cons, internAll_cons, ih, List.cons_append]

theorem granted_cons (call : String × EntityKind) (calls : List (String × EntityKind))
    (result : Except RegistryError EntityId) (results : List (Except RegistryError EntityId)) :
    granted (call :: calls) (result :: results) =
      if result.isOk then call :: granted calls results else granted calls results := by
  rw [granted, List.zip_cons_cons, List.filter_cons]
  split <;> rfl

variable {r : Registry}

theorem WellFormed.nodup_declared (h : r.WellFormed) : r.declared.Nodup := by
  have hnames : (r.declared.map Prod.fst).Nodup := by
    rw [declared, List.map_map]
    exact h.nodup_map_name
  exact hnames.of_map

/-- A run of calls only adds to a registry: the names that it was granted and that are new. -/
theorem WellFormed.internAll (h : r.WellFormed) (calls : List (String × EntityKind))
    (hleft : .error .exhausted ∉ (r.internAll calls).1) :
    (r.internAll calls).2.WellFormed ∧ r.Extends (r.internAll calls).2 ∧
      (r.internAll calls).2.declared =
        (r.declared ++ granted calls (r.internAll calls).1).eraseDups := by
  induction calls generalizing r with
  | nil =>
    refine ⟨h, .refl r, ?_⟩
    change r.declared = (r.declared ++ []).eraseDups
    rw [List.append_nil, eraseDups_of_nodup h.nodup_declared]
  | cons call calls ih =>
    obtain ⟨name, kind⟩ := call
    rw [internAll_cons, List.mem_cons, not_or] at hleft
    rw [internAll_cons, granted_cons]
    rcases h.intern_cases name kind with ⟨e, he, rfl, rfl, hrun⟩ | ⟨e, -, -, -, hrun⟩ |
      ⟨id, r', -, hrun, hr', hall, -⟩ | ⟨-, -, hrun⟩
    · rw [hrun] at hleft ⊢
      have hknown : (e.name, e.kind) ∈ r.declared := List.mem_map.2 ⟨e, he, rfl⟩
      simp only [Except.isOk, Except.toBool, if_true]
      rw [eraseDups_append_cons_of_mem hknown]
      exact ih h hleft.2
    · rw [hrun] at hleft ⊢
      exact ih h hleft.2
    · rw [hrun] at hleft ⊢
      obtain ⟨hwf, hext, hdeclared⟩ := ih hr' hleft.2
      refine ⟨hwf, Extends.trans ⟨_, hall.symm⟩ hext, ?_⟩
      have hr'declared : r'.declared = r.declared ++ [(name, kind)] := by
        rw [declared, hall, List.map_append]
        rfl
      rw [hdeclared, hr'declared, List.append_assoc, List.singleton_append]
      rfl
    · exact absurd hrun.symm hleft.1

/-- There are identifiers for fewer than `2 ^ 32` calls. -/
theorem WellFormed.exhausted_not_mem_internAll (h : r.WellFormed)
    (calls : List (String × EntityKind)) (hroom : r.all.length + calls.length < 2 ^ 32) :
    .error .exhausted ∉ (r.internAll calls).1 := by
  induction calls generalizing r with
  | nil => exact List.not_mem_nil
  | cons call calls ih =>
    obtain ⟨name, kind⟩ := call
    rw [List.length_cons] at hroom
    rw [internAll_cons, List.mem_cons, not_or]
    rcases h.intern_cases name kind with ⟨e, -, -, -, hrun⟩ | ⟨e, -, -, -, hrun⟩ |
      ⟨id, r', -, hrun, hr', hall, -⟩ | ⟨-, hfull, -⟩
    · rw [hrun]
      exact ⟨by simp, ih h (Nat.lt_of_succ_lt hroom)⟩
    · rw [hrun]
      exact ⟨by simp, ih h (Nat.lt_of_succ_lt hroom)⟩
    · rw [hrun]
      refine ⟨by simp, ih hr' ?_⟩
      rw [hall, List.length_append, List.length_singleton]
      omega
    · omega

/-- New names are registered one after the other, while there are identifiers for them. -/
theorem WellFormed.internAll_new (h : r.WellFormed) (kind : EntityKind) (names : List String)
    (hnodup : names.Nodup) (hnew : ∀ e ∈ r.all, e.name ∉ names)
    (hroom : r.all.length + names.length < 2 ^ 32) :
    (r.internAll (names.map (·, kind))).2.WellFormed ∧
      (r.internAll (names.map (·, kind))).2.declared = r.declared ++ names.map (·, kind) := by
  induction names generalizing r with
  | nil => exact ⟨h, (List.append_nil _).symm⟩
  | cons name names ih =>
    obtain ⟨hname, hnodup⟩ := List.nodup_cons.1 hnodup
    rw [List.length_cons] at hroom
    rw [List.map_cons, internAll_cons]
    rcases h.intern_cases name kind with ⟨e, he, heq, -⟩ | ⟨e, he, heq, -⟩ |
      ⟨id, r', -, hrun, hr', hall, -⟩ | ⟨-, hfull, -⟩
    · exact absurd (heq ▸ List.mem_cons_self) (hnew e he)
    · exact absurd (heq ▸ List.mem_cons_self) (hnew e he)
    · have hnew' : ∀ e ∈ r'.all, e.name ∉ names := by
        intro e he
        rw [hall, List.mem_append, List.mem_singleton] at he
        rcases he with he | rfl
        · exact fun hmem => hnew e he (List.mem_cons_of_mem _ hmem)
        · exact hname
      have hroom' : r'.all.length + names.length < 2 ^ 32 := by
        rw [hall, List.length_append, List.length_singleton]
        omega
      obtain ⟨hwf, hdeclared⟩ := ih hr' hnodup hnew' hroom'
      have hr'declared : r'.declared = r.declared ++ [(name, kind)] := by
        rw [declared, hall, List.map_append]
        rfl
      rw [hrun]
      refine ⟨hwf, ?_⟩
      rw [hdeclared, hr'declared, List.append_assoc, List.singleton_append]
    · omega

/-- The entity with an identifier is declared at its place. -/
theorem WellFormed.get?_of_declared (h : r.WellFormed) {id : EntityId} {name : String}
    {kind : EntityKind} (hplace : r.declared[id.toNat - 1]? = some (name, kind)) :
    r.get? id = some ⟨id, kind, name⟩ := by
  rw [declared, List.getElem?_map, ← get?_eq_getElem?] at hplace
  obtain ⟨⟨id', kind', name'⟩, he, heq⟩ := Option.map_eq_some_iff.1 hplace
  obtain ⟨-, rfl⟩ := h.get?_eq_some_iff.1 he
  cases heq
  exact he

namespace Namesakes

/-! Two classes with one local name, of which the first is then claimed as an individual and found
again as a class. -/

def calls : List (String × EntityKind) :=
  [("http://a.org#Man", .cls), ("http://b.org#Man", .cls), ("http://a.org#Man", .individual),
    ("http://a.org#Man", .cls)]

def first : EntityId := .nth 0

def second : EntityId := .nth 1

theorem internAll_calls :
    (empty.internAll calls).1 =
        [.ok first, .ok second, .error (.kindConflict "http://a.org#Man" .cls .individual),
          .ok first] ∧
      (empty.internAll calls).2.all =
        [⟨first, .cls, "http://a.org#Man"⟩, ⟨second, .cls, "http://b.org#Man"⟩] := by
  obtain ⟨hbuilt, hfirst, hall⟩ :=
    @Built.intern_new _ .empty "http://a.org#Man" .cls first rfl (by decide)
  obtain ⟨hbuilt', hsecond, hall'⟩ :=
    @Built.intern_new _ hbuilt "http://b.org#Man" .cls second (by rw [hall]; rfl)
      (by rw [hall]; decide)
  rw [hall] at hall'
  have hknown := hbuilt'.wellFormed.intern_name (e := ⟨first, .cls, "http://a.org#Man"⟩)
    (by rw [hall']; exact List.mem_cons_self)
  dsimp only at hknown
  simp only [calls, internAll_cons, internAll, hfirst, hsecond, hknown]
  exact ⟨rfl, hall'⟩

end Namesakes

/-- **A registry is the list of the names it granted.** As long as there are identifiers, the
    entities are the calls that were granted, in order and with later repetitions dropped; all
    answers of the registry are about this list; and the entity of an identifier stays what it was
    when the identifier was given. -/
theorem internAll_lawful (calls : List (String × EntityKind))
    (hleft : .error .exhausted ∉ (empty.internAll calls).1) :
    let r := (empty.internAll calls).2
    r.declared = (granted calls (empty.internAll calls).1).eraseDups ∧ r.Lawful ∧
      ∀ earlier later, calls = earlier ++ later →
        ∀ id e, (empty.internAll earlier).2.get? id = some e → r.get? id = some e := by
  obtain ⟨hwf, -, hdeclared⟩ := wellFormed_empty.internAll calls hleft
  refine ⟨hdeclared, hwf.lawful, ?_⟩
  rintro earlier later rfl id e he
  rw [internAll_append] at hleft ⊢
  rw [List.mem_append, not_or] at hleft
  obtain ⟨hearlier, -⟩ := wellFormed_empty.internAll earlier hleft.1
  obtain ⟨-, hext, -⟩ := hearlier.internAll later hleft.2
  exact hext.get?_eq he

/-- The second class makes the local name ambiguous, and the refused call leaves no trace. -/
theorem internAll_lawful_namesakes :
    .error .exhausted ∉ (empty.internAll Namesakes.calls).1 ∧
      (empty.internAll Namesakes.calls).2.declared =
        [("http://a.org#Man", .cls), ("http://b.org#Man", .cls)] ∧
      (empty.internAll Namesakes.calls).2.resolve "Man" =
        .error (.ambiguous "Man" ["http://a.org#Man", "http://b.org#Man"]) ∧
      (empty.internAll Namesakes.calls).2.resolve "http://a.org#Man" = .ok Namesakes.first := by
  obtain ⟨hresults, hall⟩ := Namesakes.internAll_calls
  have hleft := wellFormed_empty.exhausted_not_mem_internAll Namesakes.calls (by decide)
  obtain ⟨hdeclared, hlawful, -⟩ := internAll_lawful Namesakes.calls hleft
  refine ⟨hleft, ?_, (hlawful.resolve_ambiguous_iff _ _ _).2 ?_,
    (hlawful.resolve_ok_iff _ _).2 (.inl ?_)⟩
  · rw [hdeclared, hresults]
    decide
  · rw [sharing, hall]
    decide
  · rw [hall]
    exact ⟨_, List.mem_cons_self, rfl, rfl⟩

end HornOntology.Registry
