import HornOntology.Registry
import HornOntology.Render
import Mathlib.Algebra.Group.Nat.Defs
import Mathlib.Data.List.Infix

set_option autoImplicit false

/-! # The registry as a list of entities

`all`, the list of the registered entities, is the one view of a registry: in a `WellFormed` one
the entity with identifier `n` stands at place `n - 1` of the list, both indices agree with the
list, and the next identifier is the one after its last. `intern_cases` says all that interning can
do to such a registry; the list only grows at its end, so what an identifier or a name means
stays (`Extends`).

A registry that ran out of identifiers begins again with the first one and forgets the entities
that had it, so it is not well-formed any more. But every entity that it still has is found under
its name (`Indexed`), and so a rendered name means the entity it was rendered for
(`resolve_renderEntity`). -/

namespace HornOntology

namespace Registry

/-- The registries that interning builds as long as there are identifiers left. -/
inductive Built : Registry → Prop where
  | empty : Built .empty
  | intern {r : Registry} (name : String) (kind : EntityKind) (h : Built r)
      (hleft : (r.intern name kind).1 ≠ .error .exhausted) : Built (r.intern name kind).2

/-- All registries that interning builds, also when it has to use identifiers again. -/
inductive Reachable : Registry → Prop where
  | empty : Reachable .empty
  | intern {r : Registry} (name : String) (kind : EntityKind) (h : Reachable r) :
      Reachable (r.intern name kind).2

/-- Every entity is found under its name, a name is that of an entity, and the next identifier is at
    most the one after the last. -/
structure Indexed (r : Registry) : Prop where
  ids_name : ∀ {id : EntityId} {e : Entity}, r.get? id = some e → r.ids[e.name]? = some id
  ids_le : ∀ {name : String} {id : EntityId}, r.ids[name]? = some id → id.toNat ≤ r.all.length
  group_le : ∀ {short : String} {id : EntityId},
    id ∈ (r.byLocalName.get short).toList → id.toNat ≤ r.all.length
  next_le : r.supply.next.toNat ≤ r.all.length + 1

/-- The indices and the supply agree with the list of entities. -/
structure WellFormed (r : Registry) : Prop where
  id_eq : ∀ i e, r.all[i]? = some e → e.id.toNat = i + 1
  ids_iff : ∀ name id, r.ids[name]? = some id ↔ ∃ e ∈ r.all, e.name = name ∧ e.id = id
  group_eq : ∀ short, (r.byLocalName.get short).toList =
    (r.all.filter fun e => e.localName == short).map Entity.id
  next_eq : r.supply.next.toNat = (r.all.length + 1) % 2 ^ 32
  length_lt : r.all.length < 2 ^ 32

/-- How many identifiers nobody has. -/
def unused (r : Registry) : Nat := 2 ^ 32 - 1 - r.all.length

/-- The second registry has all entities of the first, and new ones after them. -/
def Extends (r r' : Registry) : Prop := r.all <+: r'.all

variable {r r' r'' : Registry}

@[refl] theorem Extends.refl (r : Registry) : r.Extends r := List.prefix_refl _

theorem Extends.trans (h : r.Extends r') (h' : r'.Extends r'') : r.Extends r'' :=
  List.IsPrefix.trans h h'

theorem get?_eq_getElem? (r : Registry) (id : EntityId) : r.get? id = r.all[id.toNat - 1]? := by
  rw [get?, all, Array.getElem?_toList]

theorem name_eq {id : EntityId} {e : Entity} (he : r.get? id = some e) : r.name id = e.name := by
  rw [name, he, Option.map_some, Option.getD_some]

theorem renderEntity_eq_name {id : EntityId} {e : Entity} (he : r.get? id = some e)
    (hshort : localName e.name = e.name) : r.renderEntity id = e.name := by
  simp only [renderEntity, name_eq he, hshort]
  split
  · exact ite_self _
  · rfl

theorem Extends.get?_eq (h : r.Extends r') {id : EntityId} {e : Entity}
    (he : r.get? id = some e) : r'.get? id = some e := by
  obtain ⟨added, hadded⟩ := h
  rw [get?_eq_getElem?] at he ⊢
  obtain ⟨hlt, -⟩ := List.getElem?_eq_some_iff.1 he
  rw [← hadded, List.getElem?_append_left hlt, he]

theorem Extends.kind?_eq (h : r.Extends r') {id : EntityId} {kind : EntityKind}
    (hkind : r.kind? id = some kind) : r'.kind? id = some kind := by
  obtain ⟨e, he, rfl⟩ := Option.map_eq_some_iff.1 hkind
  rw [kind?, h.get?_eq he, Option.map_some]

/-! ## Looking entities up -/

namespace WellFormed

variable (h : r.WellFormed)

include h

/-- The entity with an identifier is the one in the list. -/
theorem get?_eq_some_iff {id : EntityId} {e : Entity} :
    r.get? id = some e ↔ e ∈ r.all ∧ e.id = id := by
  rw [get?_eq_getElem?]
  constructor
  · intro he
    refine ⟨List.mem_of_getElem? he, EntityId.toNat_inj ?_⟩
    have hid := h.id_eq _ _ he
    have hpos := id.toNat_pos
    omega
  · rintro ⟨hmem, rfl⟩
    obtain ⟨i, hi⟩ := List.mem_iff_getElem?.1 hmem
    rw [h.id_eq i e hi, Nat.add_sub_cancel, hi]

theorem ids_name {id : EntityId} {e : Entity} (he : r.get? id = some e) :
    r.ids[e.name]? = some id := by
  obtain ⟨hmem, hid⟩ := h.get?_eq_some_iff.1 he
  exact (h.ids_iff _ _).2 ⟨e, hmem, rfl, hid⟩

theorem ids_eq_none_iff {name : String} :
    r.ids[name]? = none ↔ ∀ e ∈ r.all, e.name ≠ name := by
  rw [Option.eq_none_iff_forall_ne_some]
  constructor
  · intro hnone e he hname
    exact hnone e.id ((h.ids_iff _ _).2 ⟨e, he, hname, rfl⟩)
  · intro hall id hid
    obtain ⟨e, he, hname, -⟩ := (h.ids_iff _ _).1 hid
    exact hall e he hname

theorem toNat_id_le {e : Entity} (he : e ∈ r.all) : e.id.toNat ≤ r.all.length := by
  obtain ⟨i, hi⟩ := List.mem_iff_getElem?.1 he
  obtain ⟨hlt, -⟩ := List.getElem?_eq_some_iff.1 hi
  rw [h.id_eq i e hi]
  exact hlt

theorem indexed : r.Indexed where
  ids_name := h.ids_name
  ids_le hid := by
    obtain ⟨e, he, -, rfl⟩ := (h.ids_iff _ _).1 hid
    exact h.toNat_id_le he
  group_le hid := by
    rw [h.group_eq] at hid
    obtain ⟨e, he, rfl⟩ := List.mem_map.1 hid
    exact h.toNat_id_le (List.mem_of_mem_filter he)
  next_le := by
    rw [h.next_eq]
    exact Nat.mod_le _ _

theorem resolve_name {id : EntityId} {e : Entity} (he : r.get? id = some e) :
    r.resolve e.name = .ok id := by
  rw [resolve, h.ids_name he]

end WellFormed

theorem get?_eq_none_iff {id : EntityId} : r.get? id = none ↔ r.all.length < id.toNat := by
  have hpos := id.toNat_pos
  rw [get?_eq_getElem?, List.getElem?_eq_none_iff]
  omega

theorem mem_group_of_resolve {name : String} {id : EntityId} (h : r.resolve name = .ok id) :
    r.ids[name]? = some id ∨ id ∈ (r.byLocalName.get name).toList := by
  unfold resolve at h
  split at h
  · next hid =>
    cases h
    exact .inl hid
  · split at h
    · cases h
    · next hone =>
      cases h
      rw [hone]
      exact .inr List.mem_cons_self
    · cases h

/-- What a name means is registered. -/
theorem Indexed.exists_of_resolve (h : r.Indexed) {name : String} {id : EntityId}
    (hname : r.resolve name = .ok id) : ∃ e, r.get? id = some e := by
  rw [← Option.ne_none_iff_exists', ne_eq, get?_eq_none_iff, Nat.not_lt]
  rcases mem_group_of_resolve hname with hid | hid
  · exact h.ids_le hid
  · exact h.group_le hid

/-- The name of an entity is found with its kind and refused with any other, and the registry is
    left as it is. -/
theorem Indexed.intern_name (h : r.Indexed) {id : EntityId} {e : Entity} (he : r.get? id = some e)
    (kind : EntityKind) :
    r.intern (r.name id) kind =
      (if e.kind = kind then .ok id else .error (.kindConflict e.name e.kind kind), r) := by
  have hkind : r.kind? id = some e.kind := by rw [kind?, he, Option.map_some]
  rw [name_eq he, intern, h.ids_name he]
  dsimp only
  rw [hkind]
  dsimp only
  split <;> rfl

/-- The rendered name of an entity means that entity, whichever of its names was taken. -/
theorem Indexed.resolve_renderEntity (h : r.Indexed) {id : EntityId} {e : Entity}
    (he : r.get? id = some e) : r.resolve (r.renderEntity id) = .ok id := by
  have hresolve : r.resolve (r.name id) = .ok id := by
    rw [name_eq he, resolve, h.ids_name he]
  unfold renderEntity
  cases hshort : r.resolve (localName (r.name id)) with
  | error _ => simpa only [hshort] using hresolve
  | ok found =>
    by_cases hfound : found = id
    · simp only [hshort, hfound, if_true]
    · simpa only [hshort, hfound, if_false] using hresolve

/-- A name that is nobody's, neither in full nor as local name, is not found. -/
theorem WellFormed.resolve_eq_notFound (h : r.WellFormed) {name : String}
    (hnew : ∀ e ∈ r.all, e.name ≠ name ∧ e.localName ≠ name) :
    r.resolve name = .error (.notFound name) := by
  have hgroup : (r.byLocalName.get name).toList = [] := by
    rw [h.group_eq, List.map_eq_nil_iff, List.filter_eq_nil_iff]
    exact fun e he => by simpa using (hnew e he).2
  rw [resolve, h.ids_eq_none_iff.2 fun e he => (hnew e he).1]
  dsimp only
  rw [hgroup]

theorem of_resolve_notFound {name missing : String}
    (h : r.resolve name = .error (.notFound missing)) : r.ids[name]? = none ∧ missing = name := by
  unfold resolve at h
  cases hid : r.ids[name]? with
  | some id => simp [hid] at h
  | none =>
    rw [hid] at h
    dsimp only at h
    split at h
    · cases h
      exact ⟨rfl, rfl⟩
    · cases h
    · cases h

/-- A name that is refused means nothing or several things. -/
theorem resolve_error_cases {name : String} {e : RegistryError} (h : r.resolve name = .error e) :
    e = .notFound name ∨ ∃ candidates, e = .ambiguous name candidates := by
  unfold resolve at h
  split at h
  · cases h
  · split at h
    · cases h
      exact .inl rfl
    · cases h
    · cases h
      exact .inr ⟨_, rfl⟩

/-! ## Registering -/

theorem wellFormed_empty : WellFormed .empty where
  id_eq i e he := by simp [empty, all] at he
  ids_iff name id := by simp [empty, all]
  group_eq short := by simp [empty, all]
  next_eq := by decide
  length_lt := by decide

/-- A registry in which nothing but the list, its indices and the supply moved on by one. -/
theorem WellFormed.append (h : r.WellFormed) {id : EntityId} {name : String} (kind : EntityKind)
    (hid : id.toNat = r.all.length + 1) (hnew : r.ids[name]? = none)
    (hall : r'.all = r.all ++ [⟨id, kind, name⟩]) (hids : r'.ids = r.ids.insert name id)
    (hgroup : r'.byLocalName = r.byLocalName.add (localName name) id)
    (hnext : r'.supply.next = r.supply.next + 1) : r'.WellFormed where
  id_eq i e he := by
    rw [hall, List.getElem?_append] at he
    split at he
    · exact h.id_eq i e he
    · next hge =>
      obtain ⟨hi, rfl⟩ := List.getElem?_eq_some_iff.1 he
      rw [List.length_singleton] at hi
      rw [List.getElem_singleton, hid]
      omega
  ids_iff n i := by
    rw [hids, hall, Std.HashMap.getElem?_insert]
    simp only [List.mem_append, List.mem_singleton, beq_iff_eq]
    have hother := (h.ids_eq_none_iff).1 hnew
    split
    · next heq =>
      subst heq
      constructor
      · intro hi
        exact ⟨_, Or.inr rfl, rfl, Option.some.inj hi⟩
      · rintro ⟨e, he | rfl, hname, rfl⟩
        · exact absurd hname (hother e he)
        · rfl
    · next hne =>
      rw [h.ids_iff]
      constructor
      · rintro ⟨e, he, hname, rfl⟩
        exact ⟨e, Or.inl he, hname, rfl⟩
      · rintro ⟨e, he | rfl, hname, rfl⟩
        · exact ⟨e, he, hname, rfl⟩
        · exact absurd hname hne
  group_eq short := by
    rw [hgroup, hall, Grouping.get_add, List.filter_append, List.map_append, ← h.group_eq]
    by_cases hshort : localName name = short
    · simp [hshort, Entity.localName]
    · simp [hshort, Entity.localName]
  next_eq := by
    rw [hnext, hall, List.length_append, List.length_singleton, UInt32.toNat_add, h.next_eq]
    simp
  length_lt := by
    have hlt : id.toNat < 2 ^ 32 := id.raw.toNat_lt
    rw [hall, List.length_append, List.length_singleton]
    omega

/-- Registering a new name either puts it at the end or finds all identifiers used. -/
theorem WellFormed.register_cases (h : r.WellFormed) {name : String} (kind : EntityKind)
    (hnew : r.ids[name]? = none) :
    (∃ id r', r.register name kind = (.ok id, r') ∧ r'.WellFormed ∧
        r'.all = r.all ++ [⟨id, kind, name⟩] ∧ id.toNat = r.all.length + 1) ∨
      (r.all.length = 2 ^ 32 - 1 ∧ (r.register name kind).1 = .error .exhausted) := by
  have hnext := h.next_eq
  have hlength := h.length_lt
  by_cases hzero : r.supply.next = 0
  · refine Or.inr ⟨?_, ?_⟩
    · rw [hzero, UInt32.toNat_zero] at hnext
      omega
    · simp [register, IdSupply.take, EntityId.ofRaw?, hzero]
  · let id : EntityId := ⟨r.supply.next, hzero⟩
    have hid : id.toNat = r.all.length + 1 := by
      have hpos := id.toNat_pos
      change 0 < r.supply.next.toNat at hpos
      change r.supply.next.toNat = _
      -- the counter is at zero only after the last identifier
      by_cases hlast : r.all.length + 1 = 2 ^ 32
      · rw [hnext, hlast, Nat.mod_self] at hpos
        omega
      · rwa [Nat.mod_eq_of_lt (by omega)] at hnext
    have htake : r.supply.take = (some id, ⟨r.supply.next + 1⟩) := by
      rw [IdSupply.take, EntityId.ofRaw?, dif_pos hzero]
    refine Or.inl ⟨id, _, by rw [register, htake], ?_⟩
    have hput : (put r.entities ⟨id, kind, name⟩).toList = r.all ++ [⟨id, kind, name⟩] := by
      have hsize : r.all.length = r.entities.size := Array.length_toList
      rw [put, if_neg (by simp only [hid]; omega), Array.toList_push, all]
    exact ⟨h.append kind hid hnew hput rfl rfl rfl, hput, hid⟩

/-- The name of an entity is found with its kind and refused with any other. -/
theorem WellFormed.intern_name (h : r.WellFormed) {e : Entity} (he : e ∈ r.all)
    (kind : EntityKind) :
    r.intern e.name kind =
      (if e.kind = kind then .ok e.id else .error (.kindConflict e.name e.kind kind), r) := by
  have hget : r.get? e.id = some e := h.get?_eq_some_iff.2 ⟨he, rfl⟩
  rw [← h.indexed.intern_name hget, name_eq hget]

/-- All that interning does: it finds the name, finds it with another kind, registers it, or has
    no identifier for it. -/
theorem WellFormed.intern_cases (h : r.WellFormed) (name : String) (kind : EntityKind) :
    (∃ e ∈ r.all, e.name = name ∧ e.kind = kind ∧ r.intern name kind = (.ok e.id, r)) ∨
    (∃ e ∈ r.all, e.name = name ∧ e.kind ≠ kind ∧
      r.intern name kind = (.error (.kindConflict name e.kind kind), r)) ∨
    (∃ id r', r.ids[name]? = none ∧ r.intern name kind = (.ok id, r') ∧ r'.WellFormed ∧
      r'.all = r.all ++ [⟨id, kind, name⟩] ∧ id.toNat = r.all.length + 1) ∨
    (r.ids[name]? = none ∧ r.all.length = 2 ^ 32 - 1 ∧
      (r.intern name kind).1 = .error .exhausted) := by
  unfold intern
  cases hid : r.ids[name]? with
  | none =>
    rcases h.register_cases kind hid with ⟨id, r', hrun, hr'⟩ | ⟨hfull, hrun⟩
    · exact Or.inr (Or.inr (Or.inl ⟨id, r', rfl, hrun, hr'⟩))
    · exact Or.inr (Or.inr (Or.inr ⟨rfl, hfull, hrun⟩))
  | some id =>
    obtain ⟨e, he, rfl, rfl⟩ := (h.ids_iff _ _).1 hid
    have hrun := h.intern_name he kind
    rw [intern, hid] at hrun
    by_cases heq : e.kind = kind
    · exact Or.inl ⟨e, he, rfl, heq, by simpa only [heq, if_true] using hrun⟩
    · exact Or.inr (Or.inl ⟨e, he, rfl, heq, by simpa only [heq, if_false] using hrun⟩)

theorem Built.wellFormed (h : r.Built) : r.WellFormed := by
  induction h with
  | empty => exact wellFormed_empty
  | intern name kind _ hleft ih =>
    rcases ih.intern_cases name kind with ⟨e, -, -, -, hrun⟩ | ⟨e, -, -, -, hrun⟩ |
      ⟨id, r', -, hrun, hr', -⟩ | ⟨-, -, hrun⟩
    · rwa [hrun]
    · rwa [hrun]
    · rwa [hrun]
    · exact absurd hrun hleft

theorem Built.of_intern (h : r.Built) {name : String} {kind : EntityKind} {id : EntityId}
    (hrun : r.intern name kind = (.ok id, r')) : r'.Built := by
  have hbuilt := h.intern name kind (by simp [hrun])
  rwa [hrun] at hbuilt

/-- A new entity takes one identifier. -/
theorem WellFormed.unused_of_append (h : r'.WellFormed) {e : Entity}
    (hall : r'.all = r.all ++ [e]) : r.unused = r'.unused + 1 := by
  have hlt := h.length_lt
  rw [hall, List.length_append, List.length_singleton] at hlt
  rw [unused, unused, hall, List.length_append, List.length_singleton]
  omega

/-- A new name is registered with the next identifier. -/
theorem Built.intern_new (h : r.Built) {name : String} (kind : EntityKind) {id : EntityId}
    (hid : id.toNat = r.all.length + 1) (hnew : ∀ e ∈ r.all, e.name ≠ name) :
    (r.intern name kind).2.Built ∧ (r.intern name kind).1 = .ok id ∧
      (r.intern name kind).2.all = r.all ++ [⟨id, kind, name⟩] := by
  rcases h.wellFormed.intern_cases name kind with ⟨e, he, hname, -⟩ | ⟨e, he, hname, -⟩ |
    ⟨id', r', -, hrun, -, hall, hid'⟩ | ⟨-, hfull, -⟩
  · exact absurd hname (hnew e he)
  · exact absurd hname (hnew e he)
  · obtain rfl : id = id' := EntityId.toNat_inj (hid.trans hid'.symm)
    rw [hrun]
    exact ⟨h.of_intern hrun, rfl, hall⟩
  · have hlt : id.toNat < 2 ^ 32 := id.raw.toNat_lt
    omega

/-! ## When identifiers are used again -/

/-- The new entity stands at the place of its identifier, and the other places are as before. -/
theorem getElem?_put {entities : Array Entity} {e : Entity}
    (h : e.id.toNat ≤ entities.size + 1) (i : Nat) :
    (put entities e)[i]? = if i = e.id.toNat - 1 then some e else entities[i]? := by
  have hpos := e.id.toNat_pos
  unfold put
  dsimp only
  split
  · next hlt =>
    rw [Array.getElem?_setIfInBounds]
    grind
  · next hge =>
    have hlast : e.id.toNat - 1 = entities.size := by omega
    rw [Array.getElem?_push, hlast]

theorem size_put {entities : Array Entity} {e : Entity} (h : e.id.toNat ≤ entities.size + 1) :
    (put entities e).size = max entities.size e.id.toNat := by
  have hpos := e.id.toNat_pos
  unfold put
  dsimp only
  split
  · rw [Array.size_setIfInBounds]
    omega
  · rw [Array.size_push]
    omega

theorem Indexed.register (h : r.Indexed) {name : String} (kind : EntityKind)
    (hnew : r.ids[name]? = none) : (r.register name kind).2.Indexed := by
  have hnext := h.next_le
  have hsize : r.all.length = r.entities.size := Array.length_toList
  by_cases hzero : r.supply.next = 0
  · have htake : r.supply.take = (none, ⟨1⟩) := by
      simp [IdSupply.take, EntityId.ofRaw?, hzero]
    rw [Registry.register, htake]
    exact ⟨h.ids_name, h.ids_le, h.group_le, Nat.le_add_left 1 _⟩
  · let id : EntityId := ⟨r.supply.next, hzero⟩
    have htake : r.supply.take = (some id, ⟨r.supply.next + 1⟩) := by
      rw [IdSupply.take, EntityId.ofRaw?, dif_pos hzero]
    have hid : id.toNat ≤ r.entities.size + 1 := hsize ▸ hnext
    have hlength : (put r.entities ⟨id, kind, name⟩).toList.length =
        max r.entities.size id.toNat := by
      rw [Array.length_toList]
      exact size_put hid
    rw [Registry.register, htake]
    refine ⟨?_, ?_, ?_, ?_⟩
    · intro id' e he
      rw [get?, getElem?_put hid] at he
      dsimp only
      rw [Std.HashMap.getElem?_insert]
      split at he
      · next hplace =>
        cases he
        rw [if_pos (beq_self_eq_true name)]
        refine congrArg some (EntityId.toNat_inj ?_)
        have hpos := id.toNat_pos
        have hpos' := id'.toNat_pos
        change id'.toNat - 1 = id.toNat - 1 at hplace
        omega
      · -- the name of another entity is not new
        have hold := h.ids_name (show r.get? id' = some e from he)
        have hne : name ≠ e.name := by
          rintro rfl
          simp [hnew] at hold
        rw [if_neg (by simpa using hne), hold]
    · intro other id' hid'
      change id'.toNat ≤ (put r.entities ⟨id, kind, name⟩).toList.length
      change (r.ids.insert name id)[other]? = some id' at hid'
      rw [Std.HashMap.getElem?_insert] at hid'
      split at hid'
      · cases hid'
        omega
      · have hle := h.ids_le hid'
        omega
    · intro short id' hid'
      change id'.toNat ≤ (put r.entities ⟨id, kind, name⟩).toList.length
      change id' ∈ ((r.byLocalName.add (localName name) id).get short).toList at hid'
      rw [Grouping.get_add] at hid'
      split at hid'
      · rw [Array.toList_push, List.mem_append, List.mem_singleton] at hid'
        rcases hid' with hold | rfl
        · have hle := h.group_le hold
          omega
        · omega
      · have hle := h.group_le hid'
        omega
    · change (r.supply.next + 1).toNat ≤ (put r.entities ⟨id, kind, name⟩).toList.length + 1
      have hword : (r.supply.next + 1).toNat ≤ id.toNat + 1 := by
        rw [UInt32.toNat_add]
        exact Nat.mod_le _ _
      omega

theorem Indexed.intern (h : r.Indexed) (name : String) (kind : EntityKind) :
    (r.intern name kind).2.Indexed := by
  unfold Registry.intern
  cases hid : r.ids[name]? with
  | none => exact h.register kind hid
  | some id =>
    cases hkind : r.kind? id with
    | none => simpa [hkind] using h
    | some existing =>
      by_cases heq : existing = kind
      · simpa [hkind, heq] using h
      · simpa [hkind, heq] using h

theorem Built.reachable (h : r.Built) : r.Reachable := by
  induction h with
  | empty => exact .empty
  | intern name kind _ _ ih => exact ih.intern name kind

theorem Reachable.indexed (h : r.Reachable) : r.Indexed := by
  induction h with
  | empty => exact wellFormed_empty.indexed
  | intern name kind _ ih => exact ih.intern name kind

theorem length_le_length_intern (r : Registry) (name : String) (kind : EntityKind) :
    r.all.length ≤ (r.intern name kind).2.all.length := by
  have hput : ∀ e : Entity, r.entities.size ≤ (put r.entities e).size := by
    intro e
    unfold put
    dsimp only
    split
    · rw [Array.size_setIfInBounds]
    · rw [Array.size_push]
      exact Nat.le_succ _
  simp only [all, Array.length_toList]
  unfold intern register
  repeat' split
  all_goals first | exact le_rfl | exact hput _

/-- Identifiers are used again only when all of them are in use. -/
theorem Reachable.built_or_full (h : r.Reachable) : r.Built ∨ r.unused = 0 := by
  induction h with
  | empty => exact .inl .empty
  | @intern r name kind _ ih =>
    have hlength := r.length_le_length_intern name kind
    rcases ih with hbuilt | hfull
    · by_cases hleft : (r.intern name kind).1 = .error .exhausted
      · rcases hbuilt.wellFormed.intern_cases name kind with ⟨e, -, -, -, hrun⟩ |
          ⟨e, -, -, -, hrun⟩ | ⟨id, r', -, hrun, -⟩ | ⟨-, hfull, -⟩
        · simp [hrun] at hleft
        · simp [hrun] at hleft
        · simp [hrun] at hleft
        · rw [unused]
          omega
      · exact .inl (hbuilt.intern name kind hleft)
    · rw [unused] at hfull ⊢
      omega

end Registry

end HornOntology
