import HornOntology.Proofs.Interning

set_option autoImplicit false

/-! # When the identifiers run out

A supply has a 32-bit counter. It hands out the `2 ^ 32 - 1` identifiers in order, has nothing to
give at the request after them, and then begins again with the first identifier. So requests are
answered in an orderly way as long as there are at most `2 ^ 32` of them, and not any longer
(`orderly_takeMany_iff`).

For a registry that means: no two names have one identifier, and an entity stays what it was, also
in a call that is refused for want of an identifier. But the next new name takes the place of the
first entity (`keepsApart_iff`). -/

namespace HornOntology

/-! ## Requests -/

theorem EntityId.ofRaw?_eq_none_iff {raw : UInt32} : ofRaw? raw = none ↔ raw.toNat = 0 := by
  rw [ofRaw?]
  split
  · next h => simpa [← UInt32.toNat_inj] using h
  · next h => simpa [← UInt32.toNat_inj] using h

theorem EntityId.ofRaw?_eq_some_iff {raw : UInt32} {id : EntityId} :
    ofRaw? raw = some id ↔ id.toNat = raw.toNat := by
  rw [ofRaw?]
  split
  · next h =>
    rw [Option.some.injEq]
    exact ⟨fun heq => heq ▸ rfl, fun heq => (toNat_inj heq).symm⟩
  · next h =>
    have hzero : raw.toNat = 0 := by simpa [← UInt32.toNat_inj] using h
    have hpos := id.toNat_pos
    refine iff_of_false (by simp) ?_
    omega

namespace IdSupply

/-- The answers to requests: identifiers are handed out in increasing order, so none twice, and
    once there is none there is none any more. -/
structure Orderly (answers : List (Option EntityId)) : Prop where
  increasing : (answers.filterMap id).Pairwise fun a b => a.toNat < b.toNat
  final : answers.Pairwise fun earlier later => earlier = none → later = none

/-- Each request takes the word after the last one. -/
theorem takeMany_fst (count : Nat) (supply : IdSupply) :
    (takeMany count supply).1 =
      (List.range count).map fun i => EntityId.ofRaw? (.ofNat (supply.next.toNat + i)) := by
  induction count generalizing supply with
  | zero => rfl
  | succ count ih =>
    have hfirst : (takeMany (count + 1) supply).1 =
        EntityId.ofRaw? supply.next :: (takeMany count supply.take.2).1 := rfl
    rw [hfirst, ih, List.range_succ_eq_map, List.map_cons, List.map_map]
    refine congrArg₂ List.cons ?_ (List.map_congr_left fun i _ => congrArg _ ?_)
    · rw [Nat.add_zero, UInt32.ofNat_toNat]
    · rw [← UInt32.toNat_inj, UInt32.toNat_ofNat', UInt32.toNat_ofNat', take, UInt32.toNat_add,
        UInt32.toNat_one, Nat.mod_add_mod, Nat.add_right_comm]
      rfl

/-- The answer to the request after `i` others. -/
theorem answer_eq_none_iff {i : Nat} :
    EntityId.ofRaw? (.ofNat (start.next.toNat + i)) = none ↔ (i + 1) % 2 ^ 32 = 0 := by
  rw [EntityId.ofRaw?_eq_none_iff, UInt32.toNat_ofNat', Nat.add_comm]
  rfl

theorem toNat_answer {i : Nat} {id : EntityId}
    (h : EntityId.ofRaw? (.ofNat (start.next.toNat + i)) = some id) :
    id.toNat = (i + 1) % 2 ^ 32 := by
  rw [EntityId.ofRaw?_eq_some_iff, UInt32.toNat_ofNat', Nat.add_comm] at h
  exact h

/-- Requests are answered in an orderly way up to the first one that gets nothing. -/
theorem orderly_takeMany_iff (count : Nat) :
    Orderly (takeMany count start).1 ↔ count ≤ 2 ^ 32 := by
  rw [takeMany_fst]
  constructor
  · intro h
    by_contra hmany
    have hfinal := List.pairwise_iff_getElem.1 h.final (2 ^ 32 - 1) (2 ^ 32)
    simp only [List.length_map, List.length_range, List.getElem_map, List.getElem_range,
      answer_eq_none_iff] at hfinal
    have hafter := hfinal (by omega) (by omega) (by omega) (by omega)
    omega
  · intro hcount
    constructor
    · rw [List.filterMap_map, List.pairwise_filterMap]
      refine List.pairwise_lt_range.imp_of_mem fun {i j} hi hj hlt a ha b hb => ?_
      rw [List.mem_range] at hi hj
      have hposa := a.toNat_pos
      have hposb := b.toNat_pos
      rw [toNat_answer ha] at hposa ⊢
      rw [toNat_answer hb] at hposb ⊢
      omega
    · rw [List.pairwise_map]
      refine List.pairwise_lt_range.imp_of_mem fun {i j} hi hj hlt hnone => ?_
      rw [List.mem_range] at hi hj
      rw [answer_eq_none_iff] at hnone
      omega

end IdSupply

namespace Registry

/-! ## Calls that find no identifier -/

variable {r : Registry}

/-- The identifier that is given first, and first again. -/
def first : EntityId := .nth 0

/-- The call that finds no identifier turns the counter back to the first one. -/
theorem WellFormed.intern_of_full (h : r.WellFormed) (hfull : r.all.length = 2 ^ 32 - 1)
    {name : String} (hnew : r.ids[name]? = none) (kind : EntityKind) :
    r.intern name kind = (.error .exhausted, { r with supply := .start }) := by
  have hnext : r.supply.next = 0 := by
    rw [← UInt32.toNat_inj, h.next_eq, hfull]
    rfl
  have htake : r.supply.take = (none, .start) := by
    simp [IdSupply.take, EntityId.ofRaw?, hnext, IdSupply.start]
  rw [intern, hnew]
  dsimp only
  rw [register, htake]

/-- A registry whose counter is back at the start puts a new name in the first place. -/
theorem intern_of_start (hsupply : r.supply = .start) {name : String}
    (hnew : r.ids[name]? = none) (kind : EntityKind) :
    (r.intern name kind).2.get? first = some ⟨first, kind, name⟩ ∧
      (r.intern name kind).2.ids = r.ids.insert name first ∧
      (r.intern name kind).1 = .ok first := by
  have htake : r.supply.take = (some first, ⟨2⟩) := by rw [hsupply]; rfl
  rw [intern, hnew]
  dsimp only
  rw [register, htake]
  have hroom : first.toNat ≤ r.entities.size + 1 := Nat.le_add_left 1 _
  refine ⟨?_, rfl, rfl⟩
  rw [get?, getElem?_put hroom, if_pos rfl]

/-- Then the name of the first entity leads to the new one, whatever it was. -/
theorem WellFormed.intern_first_of_start (h : r.WellFormed) {e : Entity}
    (hfirst : r.get? first = some e) {name : String} (hnew : r.ids[name]? = none)
    {kind other : EntityKind} (hother : kind ≠ other) :
    ∃ r', { r with supply := .start }.intern name kind = (.ok first, r') ∧
      r'.get? first = some ⟨first, kind, name⟩ ∧
      r'.intern e.name other = (.error (.kindConflict e.name kind other), r') := by
  obtain ⟨hget, hids, hresult⟩ := @intern_of_start { r with supply := .start } rfl name hnew kind
  generalize { r with supply := .start }.intern name kind = step at hget hids hresult ⊢
  obtain ⟨result, r'⟩ := step
  cases hresult
  refine ⟨r', rfl, hget, ?_⟩
  have hne : name ≠ e.name := by
    rintro rfl
    cases hnew.symm.trans (h.ids_name hfirst)
  have hid : r'.ids[e.name]? = some first := by
    rw [show r'.ids = _ from hids, Std.HashMap.getElem?_insert, if_neg (by simpa using hne)]
    exact h.ids_name hfirst
  have hkind : r'.kind? first = some kind := by rw [kind?, hget, Option.map_some]
  rw [intern, hid]
  dsimp only
  rw [hkind]
  exact if_neg hother

/-- A registry that is full and whose counter is back at the start. -/
def Spent (r : Registry) : Prop :=
  ∃ full : Registry, full.WellFormed ∧ full.all.length = 2 ^ 32 - 1 ∧
    r = { full with supply := .start }

theorem Spent.supply_eq (h : r.Spent) : r.supply = .start := by
  obtain ⟨full, -, -, rfl⟩ := h
  rfl

/-- A full registry has a first entity, under its name. -/
theorem Spent.exists_first (h : r.Spent) :
    ∃ e, r.get? first = some e ∧ r.ids[e.name]? = some first := by
  obtain ⟨full, hwf, hfull, rfl⟩ := h
  have hne : full.all ≠ [] := by
    intro hnil
    rw [hnil] at hfull
    cases hfull
  obtain ⟨e, rest, hall⟩ := List.exists_cons_of_ne_nil hne
  have hget : full.get? first = some e := by
    rw [get?_eq_getElem?, hall]
    rfl
  exact ⟨e, hget, hwf.ids_name hget⟩

theorem intern_snd_of_known {name : String} (hknown : r.ids[name]? ≠ none) (kind : EntityKind) :
    (r.intern name kind).2 = r := by
  unfold intern
  split
  · next hnew => exact absurd hnew hknown
  · split
    · rfl
    · split <;> rfl

/-- A call leaves a well-formed registry behind, unless it finds no identifier. -/
theorem WellFormed.intern_outcome (h : r.WellFormed) (name : String) (kind : EntityKind) :
    r.Extends (r.intern name kind).2 ∧
      ((r.intern name kind).1 ≠ .error .exhausted ∧ (r.intern name kind).2.WellFormed ∨
        (r.intern name kind).1 = .error .exhausted ∧ (r.intern name kind).2.Spent) := by
  rcases h.intern_cases name kind with ⟨e, -, -, -, hrun⟩ | ⟨e, -, -, -, hrun⟩ |
    ⟨id, r', -, hrun, hr', hall, -⟩ | ⟨hnew, hfull, -⟩
  · rw [hrun]
    exact ⟨.refl r, .inl ⟨nofun, h⟩⟩
  · rw [hrun]
    exact ⟨.refl r, .inl ⟨nofun, h⟩⟩
  · rw [hrun]
    exact ⟨⟨_, hall.symm⟩, .inl ⟨nofun, hr'⟩⟩
  · rw [h.intern_of_full hfull hnew]
    exact ⟨.refl r, .inr ⟨rfl, r, h, hfull, rfl⟩⟩

theorem Reachable.internAll (h : r.Reachable) (calls : List (String × EntityKind)) :
    (r.internAll calls).2.Reachable := by
  induction calls generalizing r with
  | nil => exact h
  | cons call calls ih => exact ih (h.intern call.1 call.2)

/-! ## Runs of calls -/

/-- After a run of calls every name has an identifier of its own, and every entity that was
    registered on the way is still there. -/
structure KeepsApart (calls : List (String × EntityKind)) : Prop where
  names : ∀ name name' id, (empty.internAll calls).2.lookup name = .ok id →
    (empty.internAll calls).2.lookup name' = .ok id → name = name'
  entities : ∀ earlier later, calls = earlier ++ later → ∀ id e,
    (empty.internAll earlier).2.get? id = some e → (empty.internAll calls).2.get? id = some e

/-- After a call that found no identifier, a name is interned that is not registered. -/
def InternsBeyond (calls : List (String × EntityKind)) : Prop :=
  ∃ before name kind after, calls = before ++ (name, kind) :: after ∧
    .error .exhausted ∈ (empty.internAll before).1 ∧ (empty.internAll before).2.ids[name]? = none

theorem InternsBeyond.append {calls : List (String × EntityKind)} (h : InternsBeyond calls)
    (more : List (String × EntityKind)) : InternsBeyond (calls ++ more) := by
  obtain ⟨before, name, kind, after, rfl, hrefused, hnew⟩ := h
  exact ⟨before, name, kind, after ++ more, by simp, hrefused, hnew⟩

/-- The first name that is interned so. -/
theorem InternsBeyond.exists_first {calls : List (String × EntityKind)} (h : InternsBeyond calls) :
    ∃ before name kind after, calls = before ++ (name, kind) :: after ∧
      .error .exhausted ∈ (empty.internAll before).1 ∧
      (empty.internAll before).2.ids[name]? = none ∧ ¬InternsBeyond before := by
  obtain ⟨before, name, kind, after, hcalls, hrefused, hnew⟩ := h
  induction hlen : before.length using Nat.strong_induction_on
    generalizing before name kind after with
  | _ length ih =>
    by_cases hbefore : InternsBeyond before
    · obtain ⟨before', name', kind', after', rfl, hrefused', hnew'⟩ := hbefore
      refine ih before'.length ?_ before' name' kind' (after' ++ (name, kind) :: after) ?_ hrefused'
        hnew' rfl
      · rw [← hlen, List.length_append, List.length_cons]
        omega
      · rw [hcalls, List.append_assoc, List.cons_append]
    · exact ⟨before, name, kind, after, hcalls, hrefused, hnew, hbefore⟩

/-- There are at least `2 ^ 32` calls before such a name. -/
theorem InternsBeyond.lt_length {calls : List (String × EntityKind)} (h : InternsBeyond calls) :
    2 ^ 32 < calls.length := by
  obtain ⟨before, name, kind, after, rfl, hrefused, -⟩ := h
  have hbefore : ¬before.length < 2 ^ 32 := by
    intro hroom
    refine wellFormed_empty.exhausted_not_mem_internAll before ?_ hrefused
    simpa [empty, all] using hroom
  rw [List.length_append, List.length_cons]
  omega

/-- What a run of calls leaves behind: a well-formed registry, or else one that is spent. -/
def Sound (run : List (Except RegistryError EntityId) × Registry) : Prop :=
  .error .exhausted ∉ run.1 ∧ run.2.WellFormed ∨ .error .exhausted ∈ run.1 ∧ run.2.Spent

/-- One call more. -/
theorem sound_concat {calls : List (String × EntityKind)} (h : Sound (empty.internAll calls))
    {name : String} {kind : EntityKind} (hbeyond : ¬InternsBeyond (calls ++ [(name, kind)])) :
    Sound (empty.internAll (calls ++ [(name, kind)])) ∧
      (empty.internAll calls).2.Extends (empty.internAll (calls ++ [(name, kind)])).2 := by
  have hrun : empty.internAll (calls ++ [(name, kind)]) =
      ((empty.internAll calls).1 ++ [((empty.internAll calls).2.intern name kind).1],
        ((empty.internAll calls).2.intern name kind).2) := internAll_append _ _ _
  rw [hrun, Sound]
  simp only [List.mem_append, List.mem_singleton]
  rcases h with ⟨hleft, hwf⟩ | ⟨hrefused, hspent⟩
  · obtain ⟨hextends, ⟨hresult, hwf'⟩ | ⟨hresult, hspent⟩⟩ := hwf.intern_outcome name kind
    · exact ⟨.inl ⟨not_or.2 ⟨hleft, Ne.symm hresult⟩, hwf'⟩, hextends⟩
    · exact ⟨.inr ⟨.inr hresult.symm, hspent⟩, hextends⟩
  · have hknown : (empty.internAll calls).2.ids[name]? ≠ none := fun hnew =>
      hbeyond ⟨calls, name, kind, [], rfl, hrefused, hnew⟩
    rw [intern_snd_of_known hknown]
    exact ⟨.inr ⟨.inl hrefused, hspent⟩, .refl _⟩

theorem sound_internAll {calls : List (String × EntityKind)} (h : ¬InternsBeyond calls) :
    Sound (empty.internAll calls) := by
  induction calls using List.reverseRecOn with
  | nil => exact .inl ⟨List.not_mem_nil, wellFormed_empty⟩
  | append_singleton calls call ih =>
    exact (sound_concat (ih fun hbeyond => h (hbeyond.append _)) h).1

theorem extends_internAll {earlier later : List (String × EntityKind)}
    (h : ¬InternsBeyond (earlier ++ later)) :
    (empty.internAll earlier).2.Extends (empty.internAll (earlier ++ later)).2 := by
  induction later using List.reverseRecOn with
  | nil =>
    rw [List.append_nil]
  | append_singleton later call ih =>
    rw [← List.append_assoc] at h ⊢
    have hbefore : ¬InternsBeyond (earlier ++ later) := fun hbeyond => h (hbeyond.append _)
    exact (ih hbefore).trans (sound_concat (sound_internAll hbefore) h).2

theorem WellFormed.eq_of_lookup (h : r.WellFormed) {name name' : String} {id : EntityId}
    (hname : r.lookup name = .ok id) (hname' : r.lookup name' = .ok id) : name = name' := by
  obtain ⟨e, he, rfl, rfl⟩ := h.lookup_eq_ok_iff.1 hname
  obtain ⟨e', he', rfl, hid⟩ := h.lookup_eq_ok_iff.1 hname'
  have heq : some e = some e' := by rw [← h.get?_id he, ← h.get?_id he', hid]
  exact congrArg Entity.name (Option.some.inj heq)

/-- Names and entities are kept apart exactly until a new name comes after the last identifier. -/
theorem keepsApart_iff (calls : List (String × EntityKind)) :
    KeepsApart calls ↔ ¬InternsBeyond calls := by
  constructor
  · intro hapart hbeyond
    obtain ⟨before, name, kind, after, rfl, hrefused, hnew, hbefore⟩ := hbeyond.exists_first
    rcases sound_internAll hbefore with ⟨hleft, -⟩ | ⟨-, hspent⟩
    · exact hleft hrefused
    -- the first identifier would have the old entity and the new one
    obtain ⟨e, hget, hknown⟩ := hspent.exists_first
    have hold := hapart.entities before _ rfl first e hget
    have hstep : (empty.internAll (before ++ [(name, kind)])).2.get? first =
        some ⟨first, kind, name⟩ := by
      rw [internAll_append]
      exact (intern_of_start hspent.supply_eq hnew kind).1
    have hnext := hapart.entities (before ++ [(name, kind)]) after (by simp) _ _ hstep
    rw [hold, Option.some.injEq] at hnext
    rw [hnext] at hknown
    cases hknown.symm.trans hnew
  · intro hbeyond
    constructor
    · intro name name' id hname hname'
      rcases sound_internAll hbeyond with ⟨-, hwf⟩ | ⟨-, full, hwf, -, hspent⟩
      · exact hwf.eq_of_lookup hname hname'
      · rw [hspent] at hname hname'
        exact hwf.eq_of_lookup hname hname'
    · rintro earlier later rfl id e he
      exact (extends_internAll hbeyond).get?_eq he

/-! ## More names than identifiers -/

/-- Of two new names in a full registry the first is refused, and the second takes the place of the
    first entity, whose name still leads there. -/
theorem internAll_beyond (kind : EntityKind) {names : List String} {a b c : String}
    (hnodup : (a :: names ++ [b, c]).Nodup) (hlength : (a :: names).length = 2 ^ 32 - 1) :
    (empty.internAll ((a :: names).map (·, kind))).2.get? first = some ⟨first, kind, a⟩ ∧
      (empty.internAll ((a :: names ++ [b, c]).map (·, kind))).2.get? first =
        some ⟨first, kind, c⟩ ∧
      (empty.internAll ((a :: names ++ [b, c]).map (·, kind))).2.lookup a = .ok first ∧
      (empty.internAll ((a :: names ++ [b, c]).map (·, kind))).2.lookup c = .ok first := by
  obtain ⟨hnodup', -, hdisjoint⟩ := List.nodup_append'.1 hnodup
  obtain ⟨hwf, hdeclared⟩ := wellFormed_empty.internAll_new kind (a :: names) hnodup'
    (by simp [empty, all]) (by rw [hlength]; decide)
  rw [List.map_append, internAll_append]
  generalize (empty.internAll ((a :: names).map (·, kind))).2 = r at hwf hdeclared ⊢
  replace hdeclared : r.declared = (a :: names).map (·, kind) := hdeclared
  have hget : r.get? first = some ⟨first, kind, a⟩ := by
    apply hwf.get?_of_declared
    rw [hdeclared]
    rfl
  have hfull : r.all.length = 2 ^ 32 - 1 := by
    have hcount : r.declared.length = r.all.length := List.length_map _
    rw [← hcount, hdeclared, List.length_map, hlength]
  have hnew (name : String) (hname : name ∈ [b, c]) : r.ids[name]? = none := by
    rw [hwf.ids_eq_none_iff]
    intro e he heq
    have hmem : (e.name, e.kind) ∈ r.declared := List.mem_map.2 ⟨e, he, rfl⟩
    rw [hdeclared, List.mem_map] at hmem
    obtain ⟨old, hold, hpair⟩ := hmem
    cases hpair
    exact hdisjoint hold (heq ▸ hname)
  have hb := hwf.intern_of_full hfull (hnew b List.mem_cons_self) kind
  obtain ⟨hgetc, hids, -⟩ := @intern_of_start { r with supply := .start } rfl c
    (hnew c (List.mem_cons_of_mem _ List.mem_cons_self)) kind
  have hac : a ≠ c := by
    rintro rfl
    exact hdisjoint List.mem_cons_self (List.mem_cons_of_mem _ List.mem_cons_self)
  simp only [List.map_cons, List.map_nil, internAll_cons, internAll, hb]
  refine ⟨hget, hgetc, ?_, ?_⟩
  · rw [lookup, hids, Std.HashMap.getElem?_insert, if_neg (by simpa using hac.symm),
      hwf.ids_name hget]
  · rw [lookup, hids, Std.HashMap.getElem?_insert, if_pos (by simp)]

namespace Letters

/-! Texts of one letter, told apart by their lengths. -/

def name (n : Nat) : String := String.ofList (List.replicate n 'a')

def calls (count : Nat) : List (String × EntityKind) :=
  ((List.range count).map name).map (·, .individual)

theorem name_injective : Function.Injective name := by
  intro m n h
  simpa [name] using congrArg List.length (String.ofList_injective h)

/-- All but the first and the last two names of a series. -/
def between (n : Nat) : List String := (List.range' 1 n).map name

theorem map_name_range (n : Nat) : (List.range (n + 1)).map name = name 0 :: between n := by
  rw [List.range_eq_range', List.range'_succ, List.map_cons, between]

theorem map_name_range_add (n : Nat) : (List.range (n + 3)).map name =
    name 0 :: between n ++ [name (n + 1), name (n + 2)] := by
  rw [List.range_succ, List.range_succ, List.map_append, List.map_append, map_name_range,
    List.append_assoc]
  rfl

theorem length_between (n : Nat) : (name 0 :: between n).length = n + 1 := by
  rw [List.length_cons, between, List.length_map, List.length_range']

theorem toList_name (n : Nat) : (name n).toList = List.replicate n 'a' := String.toList_ofList

/-- No such text has another letter. -/
theorem name_ne {text : String} {c : Char} (hmem : c ∈ text.toList) (hc : c ≠ 'a') (n : Nat) :
    name n ≠ text := by
  rintro rfl
  rw [toList_name] at hmem
  exact hc (List.eq_of_mem_replicate hmem)

theorem localName_name (n : Nat) : localName (name n) = name n := by
  have hpart : (name n).toList.reverse.takeWhile (fun c => !isNamespaceEnd c) =
      List.replicate n 'a' := by
    simp [toList_name, isNamespaceEnd]
  rw [localName, hpart, List.reverse_replicate]
  exact ite_self _

/-- A property, and after it a number of individuals. -/
def filled (count : Nat) : Registry :=
  (empty.internAll (("p", .objectProperty) :: calls count)).2

theorem reachable_filled (count : Nat) : (filled count).Reachable := Reachable.empty.internAll _

section Filled

variable {count : Nat} (hcount : count < 2 ^ 32 - 1)

include hcount

theorem filled_spec : (filled count).WellFormed ∧
    (filled count).declared = ("p", .objectProperty) :: calls count := by
  obtain ⟨hbuilt, -, hall⟩ :=
    @Built.intern_new _ .empty "p" .objectProperty first rfl (List.forall_mem_nil _)
  replace hall : (empty.intern "p" .objectProperty).2.all =
    [⟨first, .objectProperty, "p"⟩] := hall
  have hother : "p" ∉ (List.range count).map name := by
    intro hmem
    obtain ⟨n, -, hn⟩ := List.mem_map.1 hmem
    exact name_ne List.mem_cons_self (by decide) n hn
  obtain ⟨hwf, hdeclared⟩ := hbuilt.wellFormed.internAll_new .individual
    ((List.range count).map name) (List.nodup_range.map name_injective)
    (by rw [hall]; exact List.forall_mem_singleton.2 hother)
    (by rw [hall, List.length_map, List.length_range, List.length_singleton]; omega)
  refine ⟨hwf, hdeclared.trans ?_⟩
  rw [declared, hall]
  rfl

theorem length_filled : (filled count).all.length = count + 1 := by
  have hlength : (filled count).declared.length = (filled count).all.length := List.length_map _
  rw [← hlength, (filled_spec hcount).2, List.length_cons, calls, List.length_map, List.length_map,
    List.length_range]

theorem get?_first_filled : (filled count).get? first = some ⟨first, .objectProperty, "p"⟩ := by
  obtain ⟨hwf, hdeclared⟩ := filled_spec hcount
  apply hwf.get?_of_declared
  rw [hdeclared]
  rfl

/-- A name with a letter that is in none of the others is new. -/
theorem isNew_filled (text : String) {c : Char} (hmem : c ∈ text.toList) (ha : c ≠ 'a')
    (hp : text ≠ "p") :
    ∀ e ∈ (filled count).all, e.name ≠ text ∧ e.localName ≠ text := by
  intro e he
  have hentry : (e.name, e.kind) ∈ (filled count).declared := List.mem_map.2 ⟨e, he, rfl⟩
  rw [(filled_spec hcount).2, List.mem_cons] at hentry
  rcases hentry with hentry | hentry
  · obtain ⟨hname, -⟩ := Prod.mk.inj hentry
    have hlocal : localName "p" = "p" := by decide
    rw [Entity.localName, hname, hlocal]
    exact ⟨hp.symm, hp.symm⟩
  · obtain ⟨text', htext', hpair⟩ := List.mem_map.1 hentry
    obtain ⟨n, -, rfl⟩ := List.mem_map.1 htext'
    obtain ⟨hname, -⟩ := Prod.mk.inj hpair
    rw [Entity.localName, ← hname, localName_name]
    exact ⟨name_ne hmem ha n, name_ne hmem ha n⟩

end Filled

end Letters

end Registry

/-- **Identifiers are given once until they run out.** Requests are answered with increasing
    identifiers, and then with none, exactly if there are at most `2 ^ 32` of them. Interning gives
    different names different identifiers and leaves every entity as it is exactly if no new name
    comes after a call that found no identifier; `2 ^ 32` calls are too few for that. -/
theorem identifiers_until_exhausted (count : Nat) (calls : List (String × EntityKind)) :
    (IdSupply.Orderly (IdSupply.takeMany count .start).1 ↔ count ≤ 2 ^ 32) ∧
      (Registry.KeepsApart calls ↔ ¬Registry.InternsBeyond calls) ∧
      (calls.length ≤ 2 ^ 32 → Registry.KeepsApart calls) := by
  refine ⟨IdSupply.orderly_takeMany_iff count, Registry.keepsApart_iff calls, fun hfew => ?_⟩
  rw [Registry.keepsApart_iff]
  exact fun hbeyond => absurd hbeyond.lt_length (Nat.not_lt_of_le hfew)

/-- After the request that gets nothing the first identifier is given again, and the name that gets
    it takes the place of the entity that had it. -/
theorem identifiers_given_again :
    let answers := (IdSupply.takeMany (2 ^ 32 + 1) .start).1
    let before := (Registry.empty.internAll (Registry.Letters.calls (2 ^ 32 - 1))).2
    let after := (Registry.empty.internAll (Registry.Letters.calls (2 ^ 32 + 1))).2
    let first := Registry.first
    (answers[0]? = some (some first) ∧ answers[2 ^ 32 - 1]? = some none ∧
        answers[2 ^ 32]? = some (some first)) ∧
      before.get? first = some ⟨first, .individual, Registry.Letters.name 0⟩ ∧
      after.get? first = some ⟨first, .individual, Registry.Letters.name (2 ^ 32)⟩ ∧
      after.lookup (Registry.Letters.name 0) = .ok first ∧
      after.lookup (Registry.Letters.name (2 ^ 32)) = .ok first := by
  intro answers before after first
  constructor
  · have hanswer (i : Nat) (hi : i < 2 ^ 32 + 1) :
        answers[i]? = some (EntityId.ofRaw? (.ofNat (IdSupply.start.next.toNat + i))) := by
      simp only [answers, IdSupply.takeMany_fst, List.getElem?_map, List.getElem?_range hi,
        Option.map_some]
    rw [hanswer _ (by omega), hanswer _ (by omega), hanswer _ (by omega)]
    exact ⟨rfl, rfl, rfl⟩
  · have hbefore := Registry.Letters.map_name_range (2 ^ 32 - 2)
    have hafter := Registry.Letters.map_name_range_add (2 ^ 32 - 2)
    have hnodup := (@List.nodup_range (2 ^ 32 - 2 + 3)).map Registry.Letters.name_injective
    rw [hafter] at hnodup
    obtain ⟨hget, hget', hlookup, hlookup'⟩ := Registry.internAll_beyond .individual hnodup
      (Registry.Letters.length_between _)
    rw [← hbefore] at hget
    rw [← hafter] at hget' hlookup hlookup'
    exact ⟨hget, hget', hlookup, hlookup'⟩

end HornOntology
