import HornOntology.RuleText
import HornOntology.Proofs.Computation
import HornOntology.Proofs.Lists
import HornOntology.Proofs.Model
import HornOntology.Proofs.Registry
import Mathlib.Data.List.Nodup

set_option autoImplicit false

/-! # Exchanging the constants of a rule

Reading a text ends with an exchange of constants: names become entities. `Term.Rel` and
`Atom.Rel` relate terms and atoms that differ in their constants only. What a rule or query is
checked for does not look at constants, so related parts pass the same checks, as long as
different constants stay different (`Rule.Rel.valid`, `Query.Rel.valid`). That they do is
`Registry.biUnique_becomes`: no new name is given the entity of another one or of a known
individual. -/

namespace HornOntology

variable {κ lam : Type} {R : κ → lam → Prop}

/-! ## Related terms and atoms -/

/-- Equal variables, or related constants. -/
inductive Term.Rel (R : κ → lam → Prop) : Term κ → Term lam → Prop where
  | const {k : κ} {l : lam} (h : R k l) : Term.Rel R (.const k) (.const l)
  | var (v : Variable) : Term.Rel R (.var v) (.var v)

/-- The same predicate or builtin, and related arguments. -/
inductive Atom.Rel (R : κ → lam → Prop) : Atom κ → Atom lam → Prop where
  | member (cls : EntityId) {t : Term κ} {u : Term lam} (h : t.Rel R u) :
      Atom.Rel R (.member cls t) (.member cls u)
  | link (property : EntityId) {s o : Term κ} {s' o' : Term lam} (hs : s.Rel R s')
      (ho : o.Rel R o') : Atom.Rel R (.link property s o) (.link property s' o')
  | builtin (op : Builtin) {ts : List (Term κ)} {us : List (Term lam)}
      (h : List.Forall₂ (Term.Rel R) ts us) : Atom.Rel R (.builtin op ts) (.builtin op us)

theorem Term.Rel.biUnique (hR : Relator.BiUnique R) : Relator.BiUnique (Term.Rel R) := by
  constructor
  · rintro _ _ _ (⟨h⟩ | _) (⟨h'⟩ | _)
    · rw [hR.1 h h']
    · rfl
  · rintro _ _ _ (⟨h⟩ | _) (⟨h'⟩ | _)
    · rw [hR.2 h h']
    · rfl

theorem Atom.Rel.biUnique (hR : Relator.BiUnique R) : Relator.BiUnique (Atom.Rel R) := by
  have hT := Term.Rel.biUnique hR
  constructor
  · intro a b c ha hb
    cases ha with
    | member cls h => cases hb with | member _ h' => rw [hT.1 h h']
    | link property hs ho => cases hb with | link _ hs' ho' => rw [hT.1 hs hs', hT.1 ho ho']
    | builtin op h => cases hb with | builtin _ h' => rw [hT.1.forall₂ h h']
  · intro a b c hb hc
    cases hb with
    | member cls h => cases hc with | member _ h' => rw [hT.2 h h']
    | link property hs ho => cases hc with | link _ hs' ho' => rw [hT.2 hs hs', hT.2 ho ho']
    | builtin op h => cases hc with | builtin _ h' => rw [hT.2.forall₂ h h']

theorem Term.Rel.var?_eq {t : Term κ} {u : Term lam} (h : t.Rel R u) : t.var? = u.var? := by
  cases h <;> rfl

theorem Atom.Rel.terms {a : Atom κ} {b : Atom lam} (h : a.Rel R b) :
    List.Forall₂ (Term.Rel R) a.terms b.terms := by
  cases h with
  | member cls h => exact .cons h .nil
  | link property hs ho => exact .cons hs (.cons ho .nil)
  | builtin op h => exact h

theorem Atom.Rel.vars_eq {a : Atom κ} {b : Atom lam} (h : a.Rel R b) : a.vars = b.vars := by
  have hterms : ∀ {ts : List (Term κ)} {us : List (Term lam)}, List.Forall₂ (Term.Rel R) ts us →
      ts.filterMap Term.var? = us.filterMap Term.var? := by
    intro ts us hts
    induction hts with
    | nil => rfl
    | cons ht _ ih => rw [List.filterMap_cons, List.filterMap_cons, ht.var?_eq, ih]
  exact hterms h.terms

theorem Atom.Rel.isRelational_eq {a : Atom κ} {b : Atom lam} (h : a.Rel R b) :
    a.isRelational = b.isRelational := by
  cases h <;> rfl

theorem Atom.Rel.wrongArity?_eq {a : Atom κ} {b : Atom lam} (h : a.Rel R b) :
    a.wrongArity? = b.wrongArity? := by
  cases h with
  | member cls h => rfl
  | link property hs ho => rfl
  | builtin op h => rw [Atom.wrongArity?, Atom.wrongArity?, h.length_eq]

theorem Atom.Rel.headError?_eq {a : Atom κ} {b : Atom lam} (h : a.Rel R b) (name : String)
    (bound : List Variable) :
    Rule.headError? name bound a = Rule.headError? name bound b := by
  have hvars := h.vars_eq
  cases h with
  | member cls h => simp only [Rule.headError?, hvars]
  | link property hs ho => simp only [Rule.headError?, hvars]
  | builtin op h => rfl

/-! ## Related bodies and heads -/

theorem boundVariables_eq_of_rel {body : List (Atom κ)} {body' : List (Atom lam)}
    (h : List.Forall₂ (Atom.Rel R) body body') : boundVariables body = boundVariables body' := by
  unfold boundVariables
  induction h with
  | nil => rfl
  | cons ha _ ih =>
    rw [List.filter_cons, List.filter_cons, ha.isRelational_eq]
    split
    · rw [List.flatMap_cons, List.flatMap_cons, ha.vars_eq, ih]
    · exact ih

theorem findSome?_eq_of_forall₂ {α β γ : Type} {S : α → β → Prop} {f : α → Option γ}
    {g : β → Option γ} (hfg : ∀ a b, S a b → f a = g b) {l : List α} {l' : List β}
    (h : List.Forall₂ S l l') : l.findSome? f = l'.findSome? g := by
  induction h with
  | nil => rfl
  | cons ha _ ih => rw [List.findSome?_cons, List.findSome?_cons, hfg _ _ ha, ih]

theorem checkBody_eq_of_rel {body : List (Atom κ)} {body' : List (Atom lam)}
    (h : List.Forall₂ (Atom.Rel R) body body') (name : String) :
    checkBody name body = checkBody name body' := by
  have hempty : body.isEmpty = body'.isEmpty := by cases h <;> rfl
  rw [checkBody, checkBody, hempty, findSome?_eq_of_forall₂ (fun a b hab => hab.wrongArity?_eq) h]

/-- Rules of the same name with related atoms. -/
structure Rule.Rel (R : κ → lam → Prop) (rule : Rule κ) (rule' : Rule lam) : Prop where
  name_eq : rule.name = rule'.name
  body : List.Forall₂ (Atom.Rel R) rule.body rule'.body
  head : List.Forall₂ (Atom.Rel R) rule.head rule'.head

/-- Queries of the same name and selection with related atoms. -/
structure Query.Rel (R : κ → lam → Prop) (query : Query κ) (query' : Query lam) : Prop where
  name_eq : query.name = query'.name
  projection_eq : query.projection = query'.projection
  distinct_eq : query.distinct = query'.distinct
  body : List.Forall₂ (Atom.Rel R) query.body query'.body

/-- The rule passes the checks as it stands, with nothing to drop from its head. -/
structure Rule.Valid [DecidableEq κ] (rule : Rule κ) : Prop where
  nodup : rule.head.Nodup
  ofParts : Rule.ofParts rule.name rule.body rule.head = .ok rule

/-- The query passes the checks as it stands. -/
def Query.Valid (query : Query κ) : Prop :=
  Query.ofParts query.name query.body query.projection query.distinct = .ok query

theorem Rule.valid_of_ofParts [DecidableEq κ] {name : String} {body head : List (Atom κ)}
    {rule : Rule κ} (h : Rule.ofParts name body head = .ok rule) : rule.Valid := by
  obtain ⟨hcheck, hnone, rfl⟩ := Rule.ofParts_eq_ok_iff.1 h
  have hnodup := nodup_eraseDups head
  refine ⟨hnodup, Rule.ofParts_eq_ok_iff.2 ⟨hcheck, ?_⟩⟩
  rw [eraseDups_of_nodup hnodup]
  exact ⟨hnone, rfl⟩

theorem Query.valid_of_ofParts {name : String} {body : List (Atom κ)}
    {projection : List Variable} {distinct : Bool} {query : Query κ}
    (h : Query.ofParts name body projection distinct = .ok query) : query.Valid := by
  obtain ⟨hcheck, hnone, rfl⟩ := Query.ofParts_eq_ok_iff.1 h
  exact Query.ofParts_eq_ok_iff.2 ⟨hcheck, hnone, rfl⟩

/-- The name of a rule or query shows in the error of a check, not in its verdict. -/
theorem checkBody_rename {name : String} {body : List (Atom κ)} (h : checkBody name body = .ok ())
    (name' : String) : checkBody name' body = .ok () :=
  checkBody_eq_ok_iff.2 (checkBody_eq_ok_iff.1 h)

theorem Rule.headError?_rename {name : String} {bound : List Variable} {atom : Atom κ}
    (h : headError? name bound atom = none) (name' : String) :
    headError? name' bound atom = none := by
  cases atom with
  | member cls arg => simpa [headError?] using h
  | link property subject object => simpa [headError?] using h
  | builtin op args => cases h

theorem Rule.Valid.rename [DecidableEq κ] {rule : Rule κ} (h : rule.Valid) (name : String) :
    ({ rule with name } : Rule κ).Valid := by
  obtain ⟨hcheck, hnone, -⟩ := Rule.ofParts_eq_ok_iff.1 h.ofParts
  rw [eraseDups_of_nodup h.nodup, List.findSome?_eq_none_iff] at hnone
  refine ⟨h.nodup, Rule.ofParts_eq_ok_iff.2 ⟨checkBody_rename hcheck name, ?_⟩⟩
  rw [eraseDups_of_nodup h.nodup, List.findSome?_eq_none_iff]
  exact ⟨fun a ha => Rule.headError?_rename (hnone a ha) name, rfl⟩

theorem Query.Valid.rename {query : Query κ} (h : query.Valid) (name : String) :
    ({ query with name } : Query κ).Valid := by
  obtain ⟨hcheck, hnone, -⟩ := Query.ofParts_eq_ok_iff.1 h
  exact Query.ofParts_eq_ok_iff.2 ⟨checkBody_rename hcheck name, hnone, rfl⟩

/-- If different constants stay different, related rules are valid together. -/
theorem Rule.Rel.valid [DecidableEq κ] [DecidableEq lam] (hR : Relator.BiUnique R)
    {rule : Rule κ} {rule' : Rule lam} (h : rule.Rel R rule') (hvalid : rule.Valid) :
    rule'.Valid := by
  have hnodup' : rule'.head.Nodup := (List.rel_nodup (Atom.Rel.biUnique hR) h.head).1 hvalid.nodup
  obtain ⟨hcheck, hnone, -⟩ := Rule.ofParts_eq_ok_iff.1 hvalid.ofParts
  rw [eraseDups_of_nodup hvalid.nodup] at hnone
  refine ⟨hnodup', Rule.ofParts_eq_ok_iff.2 ?_⟩
  rw [eraseDups_of_nodup hnodup', ← h.name_eq, ← checkBody_eq_of_rel h.body,
    ← boundVariables_eq_of_rel h.body,
    ← findSome?_eq_of_forall₂ (fun a b hab => hab.headError?_eq rule.name _) h.head]
  exact ⟨hcheck, hnone, by rw [h.name_eq]⟩

theorem Query.Rel.valid {query : Query κ} {query' : Query lam} (h : query.Rel R query')
    (hvalid : query.Valid) : query'.Valid := by
  obtain ⟨hcheck, hnone, -⟩ := Query.ofParts_eq_ok_iff.1 hvalid
  refine Query.ofParts_eq_ok_iff.2 ?_
  rw [← h.name_eq, ← h.projection_eq, ← checkBody_eq_of_rel h.body,
    ← boundVariables_eq_of_rel h.body]
  exact ⟨hcheck, hnone, by rw [h.name_eq, h.projection_eq]⟩

/-! ## Interning in sequence -/

/-- Registries stay well-formed and only grow, as long as there are identifiers. -/
def Registry.contract : Contract RegistryError Registry where
  Good := WellFormed
  Later := Extends
  fatal := .exhausted
  refl := Extends.refl
  trans := Extends.trans

/-- The computation keeps the registry well-formed and only adds to it, also if it is refused, and
    gives a result that is related to its argument in the registry and stays so. -/
structure Settles {α β : Type} (f : α → RegistryM β) (S : Registry → α → β → Prop) : Prop where
  meets : ∀ (a : α) {r : Registry}, r.WellFormed → Registry.contract.Meets r (f a) fun r' => S r' a
  mono : ∀ {r r' : Registry} {a : α} {b : β}, r.Extends r' → S r a b → S r' a b

namespace Settles

open Contract (meets_pure)

variable {f : κ → RegistryM lam} {S : Registry → κ → lam → Prop}

theorem run (hf : Settles f S) {k : κ} {l : lam} {r r' : Registry} (hr : r.WellFormed)
    (hrun : (f k).run r = (.ok l, r')) : r'.WellFormed ∧ r.Extends r' ∧ S r' k l := by
  obtain ⟨hr', hext, hresult⟩ := hf.meets k hr (by simp [hrun])
  rw [hrun] at hr' hext hresult
  exact ⟨hr', hext, hresult l rfl⟩

theorem mapM (hf : Settles f S) :
    Settles (List.mapM f) fun r => List.Forall₂ (S r) where
  mono hext h := h.imp fun _ _ => hf.mono hext
  meets l _ hr := Contract.meets_mapM hf.mono hf.meets l hr

theorem term (hf : Settles f S) :
    Settles (Term.mapConstM f) fun r => Term.Rel (S r) where
  mono hext h := by
    cases h with
    | const hk => exact .const (hf.mono hext hk)
    | var v => exact .var v
  meets t r hr := by
    cases t with
    | const k => exact (hf.meets k hr).bind fun l r₁ hr₁ _ hl => meets_pure hr₁ (.const hl)
    | var v => exact meets_pure hr (.var v)

theorem atom (hf : Settles f S) :
    Settles (Atom.mapConstM f) fun r => Atom.Rel (S r) where
  mono hext h := by
    cases h with
    | member cls ht => exact .member cls (hf.term.mono hext ht)
    | link property hs ho => exact .link property (hf.term.mono hext hs) (hf.term.mono hext ho)
    | builtin op hts => exact .builtin op (hf.term.mapM.mono hext hts)
  meets a r hr := by
    cases a with
    | member cls t =>
      exact (hf.term.meets t hr).bind fun u r₁ hr₁ _ hu => meets_pure hr₁ (.member cls hu)
    | link property s o =>
      refine (hf.term.meets s hr).bind fun s' r₁ hr₁ _ hs => ?_
      refine (hf.term.meets o hr₁).bind fun o' r₂ hr₂ hext ho => ?_
      exact meets_pure hr₂ (.link property (hf.term.mono hext hs) ho)
    | builtin op ts =>
      exact (hf.term.mapM.meets ts hr).bind fun us r₁ hr₁ _ hus => meets_pure hr₁ (.builtin op hus)

theorem rule (hf : Settles f S) :
    Settles (Rule.mapConstM f) fun r => Rule.Rel (S r) where
  mono hext h :=
    ⟨h.name_eq, hf.atom.mapM.mono hext h.body, hf.atom.mapM.mono hext h.head⟩
  meets rule r hr := by
    refine (hf.atom.mapM.meets rule.body hr).bind fun body r₁ hr₁ _ hbody => ?_
    refine (hf.atom.mapM.meets rule.head hr₁).bind fun head r₂ hr₂ hext hhead => ?_
    exact meets_pure hr₂ ⟨rfl, hf.atom.mapM.mono hext hbody, hhead⟩

theorem query (hf : Settles f S) :
    Settles (Query.mapConstM f) fun r => Query.Rel (S r) where
  mono hext h := ⟨h.name_eq, h.projection_eq, h.distinct_eq, hf.atom.mapM.mono hext h.body⟩
  meets query r hr := by
    refine (hf.atom.mapM.meets query.body hr).bind fun body r₁ hr₁ _ hbody => ?_
    exact meets_pure hr₁ ⟨rfl, rfl, rfl, hbody⟩

end Settles

/-! ## What a constant becomes -/

namespace Registry

/-- The constant is what reading makes of a name: an individual, or a name that means nothing. -/
def Offers (r : Registry) : Constant → Prop
  | .known id => r.kind? id = some .individual
  | .fresh name => r.resolve name = .error (.notFound name)

/-- The entity that a constant becomes: itself, or the individual of that name. -/
def Denotes (r : Registry) : Constant → EntityId → Prop
  | .known known, id => known = id
  | .fresh name, id => r.get? id = some ⟨id, .individual, name⟩

/-- A name that was interned is that of the result, which has the requested kind. -/
theorem meets_intern {r : Registry} (hr : r.WellFormed) (name : String) (kind : EntityKind) :
    contract.Meets r (RegistryM.intern name kind) fun r' id =>
      r'.get? id = some ⟨id, kind, name⟩ := by
  intro hleft
  change (r.intern name kind).2.WellFormed ∧ r.Extends (r.intern name kind).2 ∧
    ∀ id, (r.intern name kind).1 = .ok id →
      (r.intern name kind).2.get? id = some ⟨id, kind, name⟩
  rcases hr.intern_cases name kind with ⟨e, he, rfl, rfl, h⟩ | ⟨e, -, -, -, h⟩ |
    ⟨new, r₁, -, h, hr₁, hall, -⟩ | ⟨-, -, h⟩
  · rw [h]
    refine ⟨hr, .refl r, fun id hid => ?_⟩
    cases hid
    exact hr.get?_eq_some_iff.2 ⟨he, rfl⟩
  · rw [h]
    exact ⟨hr, .refl r, fun id hid => by cases hid⟩
  · rw [h]
    refine ⟨hr₁, ⟨_, hall.symm⟩, fun id hid => ?_⟩
    cases hid
    refine hr₁.get?_eq_some_iff.2 ⟨?_, rfl⟩
    rw [hall]
    exact List.mem_append_right _ List.mem_cons_self
  · exact absurd h hleft

theorem settles_intern : Settles Constant.intern Denotes where
  mono {r r' c id} hext h := by
    cases c with
    | known known => exact h
    | fresh name => exact hext.get?_eq h
  meets c r hr := by
    cases c with
    | known known => exact Contract.meets_pure hr rfl
    | fresh name => exact meets_intern hr name .individual

/-- A constant becomes one entity only. -/
theorem WellFormed.rightUnique_denotes {r : Registry} (hr : r.WellFormed) :
    Relator.RightUnique r.Denotes := by
  intro c id id' hden hden'
  cases c with
  | known known => exact Eq.trans (Eq.symm hden) hden'
  | fresh name =>
    have hid : r.ids[name]? = some id := hr.ids_name hden
    have hid' : r.ids[name]? = some id' := hr.ids_name hden'
    exact Option.some.inj (hid.symm.trans hid')

/-- A constant on offer in one registry is the entity in the other. -/
def Becomes (r r' : Registry) (c : Constant) (id : EntityId) : Prop := r.Offers c ∧ r'.Denotes c id

/-- Different constants become different entities. -/
theorem biUnique_becomes {r r' : Registry} (hr : r.WellFormed) (hr' : r'.WellFormed)
    (hext : r.Extends r') : Relator.BiUnique (r.Becomes r') := by
  -- a name that was not found cannot be that of an individual registered before
  have hknown : ∀ {id : EntityId} {name : String}, r.Offers (.known id) → r.Offers (.fresh name) →
      ¬r'.Denotes (.fresh name) id := by
    intro id name hid hname hden
    obtain ⟨e, he, -⟩ := Option.map_eq_some_iff.1 hid
    have heq : e = ⟨id, .individual, name⟩ := Option.some.inj ((hext.get?_eq he).symm.trans hden)
    have hfound := hr.ids_name he
    rw [heq, (of_resolve_notFound hname).1] at hfound
    cases hfound
  constructor
  · rintro (k | n) (k' | n') id ⟨hc, hden⟩ ⟨hc', hden'⟩
    · rw [show k = id from hden, show k' = id from hden']
    · cases hden
      exact absurd hden' (hknown hc hc')
    · cases hden'
      exact absurd hden (hknown hc' hc)
    · cases Option.some.inj (Eq.trans (Eq.symm hden) hden')
      rfl
  · intro c id id' h h'
    exact hr'.rightUnique_denotes h.2 h'.2

end Registry

/-! ## Known constants -/

/-- Replace every constant. -/
def Term.map (f : κ → lam) : Term κ → Term lam
  | .const k => .const (f k)
  | .var v => .var v

/-- Replace every constant. -/
def Atom.map (f : κ → lam) : Atom κ → Atom lam
  | .member cls arg => .member cls (arg.map f)
  | .link property subject object => .link property (subject.map f) (object.map f)
  | .builtin op args => .builtin op (args.map (Term.map f))

/-- Replace every constant. -/
def Rule.map (f : κ → lam) (rule : Rule κ) : Rule lam :=
  ⟨rule.name, rule.body.map (Atom.map f), rule.head.map (Atom.map f)⟩

/-- Replace every constant. -/
def Query.map (f : κ → lam) (query : Query κ) : Query lam :=
  ⟨query.name, query.body.map (Atom.map f), query.projection, query.distinct⟩

theorem Term.rel_map_of_forall {f : κ → lam} {t : Term κ}
    (h : ∀ k, t.const? = some k → R k (f k)) : t.Rel R (t.map f) := by
  cases t with
  | const k => exact .const (h k rfl)
  | var v => exact .var v

/-- What relates each constant to its replacement relates the atoms. -/
theorem Atom.rel_map_of_forall {f : κ → lam} {a : Atom κ}
    (h : ∀ k ∈ a.constants, R k (f k)) : a.Rel R (a.map f) := by
  have hterms : ∀ t ∈ a.terms, t.Rel R (t.map f) := fun t ht =>
    Term.rel_map_of_forall fun k hk => h k (List.mem_filterMap.2 ⟨t, ht, hk⟩)
  cases a with
  | member cls t => exact .member cls (hterms t List.mem_cons_self)
  | link property s o =>
    exact .link property (hterms s List.mem_cons_self)
      (hterms o (List.mem_cons_of_mem _ List.mem_cons_self))
  | builtin op ts => exact .builtin op (List.forall₂_map_right_iff.2 (List.forall₂_same.2 hterms))

theorem forall₂_map_of_forall {f : κ → lam} {atoms : List (Atom κ)}
    (h : ∀ k ∈ atoms.flatMap Atom.constants, R k (f k)) :
    List.Forall₂ (Atom.Rel R) atoms (atoms.map (Atom.map f)) := by
  refine List.forall₂_map_right_iff.2 (List.forall₂_same.2 fun a ha => ?_)
  exact Atom.rel_map_of_forall fun k hk => h k (List.mem_flatMap.2 ⟨a, ha, hk⟩)

theorem Atom.rel_map (f : κ → lam) (a : Atom κ) : a.Rel (fun k l => l = f k) (a.map f) :=
  Atom.rel_map_of_forall fun _ _ => rfl

theorem forall₂_map (f : κ → lam) (atoms : List (Atom κ)) :
    List.Forall₂ (Atom.Rel fun k l => l = f k) atoms (atoms.map (Atom.map f)) :=
  forall₂_map_of_forall fun _ _ => rfl

theorem Rule.rel_map (f : κ → lam) (rule : Rule κ) : rule.Rel (fun k l => l = f k) (rule.map f) :=
  ⟨rfl, forall₂_map f rule.body, forall₂_map f rule.head⟩

theorem Query.rel_map (f : κ → lam) (query : Query κ) :
    query.Rel (fun k l => l = f k) (query.map f) :=
  ⟨rfl, rfl, rfl, forall₂_map f query.body⟩

theorem mapM_map_eq_pure {m : Type → Type} [Monad m] [LawfulMonad m] {α β : Type} {f : α → m β}
    {g : β → α} (h : ∀ b, f (g b) = pure b) (l : List β) : (l.map g).mapM f = pure l := by
  induction l with
  | nil => rw [List.map_nil, List.mapM_nil]
  | cons b l ih => rw [List.map_cons, List.mapM_cons, h, ih, pure_bind, pure_bind]

/-- Known constants are what they are already. -/
theorem Term.mapConstM_map_known (t : Term EntityId) :
    (t.map Constant.known).mapConstM Constant.intern = pure t := by
  cases t with
  | const id => exact pure_bind id _
  | var v => rfl

theorem Atom.mapConstM_map_known (a : Atom EntityId) :
    (a.map Constant.known).mapConstM Constant.intern = pure a := by
  cases a with
  | member cls t => rw [map, mapConstM, t.mapConstM_map_known, pure_bind]
  | link property s o =>
    rw [map, mapConstM, s.mapConstM_map_known, pure_bind, o.mapConstM_map_known, pure_bind]
  | builtin op ts =>
    rw [map, mapConstM, mapM_map_eq_pure Term.mapConstM_map_known, pure_bind]

theorem Rule.mapConstM_map_known (rule : Rule EntityId) :
    (rule.map Constant.known).mapConstM Constant.intern = pure rule := by
  rw [mapConstM, map, mapM_map_eq_pure Atom.mapConstM_map_known, pure_bind,
    mapM_map_eq_pure Atom.mapConstM_map_known, pure_bind]

theorem Query.mapConstM_map_known (query : Query EntityId) :
    (query.map Constant.known).mapConstM Constant.intern = pure query := by
  rw [mapConstM, map, mapM_map_eq_pure Atom.mapConstM_map_known, pure_bind]

theorem Atom.terms_map (f : κ → lam) (a : Atom κ) :
    (a.map f).terms = a.terms.map (Term.map f) := by
  cases a <;> rfl

theorem Atom.constants_eq_flatMap (a : Atom κ) :
    a.constants = a.terms.flatMap fun t => t.const?.toList := by
  rw [constants, List.filterMap_eq_flatMap_toList]

theorem Atom.constants_map (f : κ → lam) (a : Atom κ) :
    (a.map f).constants = a.constants.map f := by
  have hterm : Term.const? ∘ Term.map f = fun t => (Term.const? t).map f := by
    funext t
    cases t <;> rfl
  rw [constants, constants, terms_map, List.filterMap_map, hterm, List.map_filterMap]

theorem flatMap_constants_map (f : κ → lam) (atoms : List (Atom κ)) :
    (atoms.map (Atom.map f)).flatMap Atom.constants = (atoms.flatMap Atom.constants).map f := by
  rw [List.flatMap_map, List.map_flatMap]
  exact congrArg (atoms.flatMap ·) (funext (Atom.constants_map f))

theorem Rule.constants_map (f : κ → lam) (rule : Rule κ) :
    (rule.map f).constants = rule.constants.map f := by
  rw [constants, constants, ← flatMap_constants_map, List.map_append, map]

theorem Query.constants_map (f : κ → lam) (query : Query κ) :
    (query.map f).constants = query.constants.map f := by
  rw [constants, constants, ← flatMap_constants_map, map]

/-- The name of a constant that is still to be registered. -/
def Constant.fresh? : Constant → Option String
  | known _ => none
  | fresh name => some name

/-- The names that are still to be registered, each where it occurs first. -/
def freshNames (constants : List Constant) : List String :=
  (constants.filterMap Constant.fresh?).eraseDups

@[simp] theorem freshNames_map_known (ids : List EntityId) :
    freshNames (ids.map .known) = [] := by
  have hnone : Constant.fresh? ∘ Constant.known = fun _ => none := rfl
  rw [freshNames, List.filterMap_map, hnone, List.filterMap_none, List.eraseDups_nil]

theorem biUnique_known : Relator.BiUnique fun id c => c = Constant.known id := by
  constructor
  · rintro a b _ rfl h
    exact Constant.known.inj h
  · rintro a _ _ rfl rfl
    rfl

end HornOntology
