import HornOntology.Proofs.Constants

set_option autoImplicit false

/-! # What does not look at constants

To replace constants after a rule was checked, its head freed of repetitions and its body planned
gives the same as to replace them before, as long as different constants stay different: the checks
and the plan look at variables and at the form of atoms (`Rule.ofParts_map`, `Query.ofParts_map`,
`plan_map`), and only dropping repetitions compares constants. -/

namespace HornOntology

variable {κ lam : Type}

/-! ## Checks and plans -/

/-- Atoms differ after the exchange if their constants do. -/
theorem Atom.map_inj {f : κ → lam} {K : κ → Prop}
    (hf : ∀ k, K k → ∀ l, K l → f k = f l → k = l) {a b : Atom κ} (ha : ∀ k ∈ a.constants, K k)
    (hb : ∀ k ∈ b.constants, K k) (h : a.map f = b.map f) : a = b := by
  have hR : Relator.BiUnique fun k l => K k ∧ l = f k := by
    constructor
    · rintro k l _ ⟨hk, rfl⟩ ⟨hl, heq⟩
      exact hf k hk l hl heq
    · rintro k _ _ ⟨-, rfl⟩ ⟨-, rfl⟩
      rfl
  have harel := Atom.rel_map_of_forall (R := fun k l => K k ∧ l = f k) fun k hk => ⟨ha k hk, rfl⟩
  have hbrel := Atom.rel_map_of_forall (R := fun k l => K k ∧ l = f k) fun k hk => ⟨hb k hk, rfl⟩
  exact (Atom.Rel.biUnique hR).1 harel (h ▸ hbrel)

theorem Atom.isRelational_map (f : κ → lam) (a : Atom κ) :
    (a.map f).isRelational = a.isRelational := (a.rel_map f).isRelational_eq.symm

theorem Atom.vars_map (f : κ → lam) (a : Atom κ) : (a.map f).vars = a.vars :=
  (a.rel_map f).vars_eq.symm

/-- What is checked and dropped is the same before and after the exchange. -/
theorem Rule.ofParts_map [DecidableEq κ] [DecidableEq lam] {f : κ → lam} {head : List (Atom κ)}
    (hinj : ∀ a ∈ head, ∀ b ∈ head, a.map f = b.map f → a = b) (name : String)
    (body : List (Atom κ)) :
    ofParts name (body.map (Atom.map f)) (head.map (Atom.map f)) =
      (ofParts name body head).map (Rule.map f) := by
  have hbody := forall₂_map f body
  have herror := findSome?_eq_of_forall₂
    (fun a b hab => hab.headError?_eq name (boundVariables body)) (forall₂_map f head.eraseDups)
  unfold ofParts
  rw [← checkBody_eq_of_rel hbody, ← boundVariables_eq_of_rel hbody, eraseDups_map_of_inj hinj]
  dsimp only
  rw [← herror]
  cases checkBody name body with
  | error e => rfl
  | ok _ =>
    cases head.eraseDups.findSome? (headError? name (boundVariables body)) with
    | some e => rfl
    | none => rfl

theorem Query.ofParts_map (f : κ → lam) (name : String) (body : List (Atom κ))
    (projection : List Variable) (distinct : Bool) :
    ofParts name (body.map (Atom.map f)) projection distinct =
      (ofParts name body projection distinct).map (Query.map f) := by
  have hbody := forall₂_map f body
  unfold ofParts
  rw [← checkBody_eq_of_rel hbody, ← boundVariables_eq_of_rel hbody]
  cases checkBody name body with
  | error e => rfl
  | ok _ =>
    cases projection.find? fun v => !(boundVariables body).contains v with
    | some v => rfl
    | none => rfl

theorem planFrom_map (f : κ → lam) (bound : List Variable) (pending body : List (Atom κ)) :
    planFrom bound (pending.map (Atom.map f)) (body.map (Atom.map f)) =
      (planFrom bound pending body).map (Atom.map f) := by
  have hready (bound : List Variable) (a : Atom κ) : (a.map f).isReady bound = a.isReady bound := by
    rw [Atom.isReady, Atom.vars_map, Atom.isReady]
  have hfilter (bound : List Variable) (pending : List (Atom κ)) :
      (pending.map (Atom.map f)).filter (Atom.isReady bound) =
        (pending.filter (Atom.isReady bound)).map (Atom.map f) := by
    rw [List.filter_map]
    exact congrArg (List.map _) (List.filter_congr fun a _ => hready bound a)
  have hwaiting (bound : List Variable) (pending : List (Atom κ)) :
      ((pending.map (Atom.map f)).filter fun a => !a.isReady bound) =
        (pending.filter fun a => !a.isReady bound).map (Atom.map f) := by
    rw [List.filter_map]
    exact congrArg (List.map _) (List.filter_congr fun a _ => congrArg _ (hready bound a))
  induction body generalizing bound pending with
  | nil => rw [List.map_nil, planFrom, planFrom, hfilter, hwaiting, List.map_append]
  | cons atom rest ih =>
    rw [List.map_cons, planFrom, planFrom, Atom.isRelational_map, Atom.vars_map]
    split
    · rw [hfilter, hwaiting, ih, List.map_append, List.map_cons]
    · rw [← List.map_singleton, ← List.map_append, ih]

/-- The plan does not look at constants. -/
theorem plan_map (f : κ → lam) (body : List (Atom κ)) :
    plan (body.map (Atom.map f)) = (plan body).map (Atom.map f) :=
  planFrom_map f [] [] body

/-! ## Constants of related rules -/

/-- Each constant of related atoms is related to some constant. -/
theorem exists_of_mem_constants {R : κ → lam → Prop} {atoms : List (Atom κ)}
    {atoms' : List (Atom lam)} (h : List.Forall₂ (Atom.Rel R) atoms atoms') :
    ∀ k ∈ atoms.flatMap Atom.constants, ∃ l, R k l := by
  intro k hk
  obtain ⟨a, ha, hka⟩ := List.mem_flatMap.1 hk
  obtain ⟨t, ht, hkt⟩ := List.mem_filterMap.1 hka
  obtain ⟨b, hab⟩ := exists_of_forall₂_left h a ha
  obtain ⟨u, htu⟩ := exists_of_forall₂_left hab.terms t ht
  cases htu with
  | const hkl =>
    cases hkt
    exact ⟨_, hkl⟩
  | var v => cases hkt

/-- Dropping the repetitions of a head drops no constant. -/
theorem Rule.constants_of_ofParts [DecidableEq κ] {name : String} {body head : List (Atom κ)}
    {rule : Rule κ} (h : ofParts name body head = .ok rule) :
    ∀ a ∈ head, ∀ k ∈ a.constants, k ∈ rule.constants := by
  obtain ⟨-, -, rfl⟩ := ofParts_eq_ok_iff.1 h
  intro a ha k hk
  exact List.mem_flatMap.2 ⟨a, List.mem_append_right _ (List.mem_eraseDups.2 ha), hk⟩

theorem Rule.Rel.eq_map {R : κ → lam → Prop} (hR : Relator.BiUnique R) {rule : Rule κ}
    {rule' : Rule lam} (h : rule.Rel R rule') {f : κ → lam} (hf : ∀ k ∈ rule.constants, R k (f k)) :
    rule' = rule.map f := by
  rw [constants, List.flatMap_append, List.forall_mem_append] at hf
  have hR' := (Atom.Rel.biUnique hR).2.forall₂
  obtain ⟨name, body, head⟩ := rule'
  rw [map, hR' (forall₂_map_of_forall hf.1) h.body, hR' (forall₂_map_of_forall hf.2) h.head,
    h.name_eq]

theorem Query.Rel.eq_map {R : κ → lam → Prop} (hR : Relator.BiUnique R) {query : Query κ}
    {query' : Query lam} (h : query.Rel R query') {f : κ → lam}
    (hf : ∀ k ∈ query.constants, R k (f k)) : query' = query.map f := by
  have hR' := (Atom.Rel.biUnique hR).2.forall₂
  obtain ⟨name, body, projection, distinct⟩ := query'
  rw [map, hR' (forall₂_map_of_forall hf) h.body, h.name_eq, h.projection_eq, h.distinct_eq]

/-! ## Replacing twice -/

section Twice

variable {mu : Type} {f : κ → lam} {g : lam → mu} {h : κ → mu}

theorem Atom.map_map_eq {a : Atom κ} (hgf : ∀ k ∈ a.constants, g (f k) = h k) :
    (a.map f).map g = a.map h := by
  have hterms : ∀ t ∈ a.terms, (t.map f).map g = t.map h := by
    intro t ht
    cases t with
    | const k => exact congrArg Term.const (hgf k (List.mem_filterMap.2 ⟨_, ht, rfl⟩))
    | var v => rfl
  cases a with
  | member cls t => exact congrArg (member cls) (hterms t List.mem_cons_self)
  | link property s o =>
    exact congrArg₂ (link property) (hterms s List.mem_cons_self)
      (hterms o (List.mem_cons_of_mem _ List.mem_cons_self))
  | builtin op ts =>
    refine congrArg (builtin op) ?_
    rw [List.map_map]
    exact List.map_congr_left hterms

theorem map_map_eq_of_constants {atoms : List (Atom κ)}
    (hgf : ∀ k ∈ atoms.flatMap Atom.constants, g (f k) = h k) :
    (atoms.map (Atom.map f)).map (Atom.map g) = atoms.map (Atom.map h) := by
  rw [List.map_map]
  refine List.map_congr_left fun a ha => Atom.map_map_eq fun k hk => ?_
  exact hgf k (List.mem_flatMap.2 ⟨a, ha, hk⟩)

end Twice

end HornOntology
