import HornOntology.KnowledgeBase
import HornOntology.Proofs.Reading

set_option autoImplicit false

/-! # Identifiers of the right kind

Facts and axioms hold bare identifiers. They are well-kinded in a registry if each identifier is
registered there with the kind that its place asks for. A registry that grows keeps this (`mono`),
and what an entry of a document becomes has it from the start: a name is looked up or registered
with the kind of its place, and it is refused if it has another (`meets_ofAxiomEntry`,
`meets_ofFactEntry`). -/

namespace HornOntology

variable {r r' : Registry}

/-! ## Well-kinded facts and axioms -/

namespace Registry

/-- The identifier is that of a class. -/
def IsClass (r : Registry) (id : EntityId) : Prop := r.kind? id = some .cls

/-- The identifier is that of an object or data property. -/
def IsProperty (r : Registry) (id : EntityId) : Prop :=
  ∃ kind, r.kind? id = some kind ∧ kind.isProperty = true

/-- The identifier is that of an entity. -/
def IsEntity (r : Registry) (id : EntityId) : Prop := ∃ kind, r.kind? id = some kind

theorem Extends.isClass (h : r.Extends r') {id : EntityId} (hid : r.IsClass id) : r'.IsClass id :=
  h.kind?_eq hid

theorem Extends.isIndividual (h : r.Extends r') {id : EntityId} (hid : r.IsIndividual id) :
    r'.IsIndividual id :=
  h.kind?_eq hid

theorem Extends.isProperty (h : r.Extends r') {id : EntityId} (hid : r.IsProperty id) :
    r'.IsProperty id := by
  obtain ⟨kind, hkind, hproperty⟩ := hid
  exact ⟨kind, h.kind?_eq hkind, hproperty⟩

theorem Extends.isEntity (h : r.Extends r') {id : EntityId} (hid : r.IsEntity id) :
    r'.IsEntity id := by
  obtain ⟨kind, hkind⟩ := hid
  exact ⟨kind, h.kind?_eq hkind⟩

end Registry

/-- Members are individuals of classes, and properties link individuals. -/
def Fact.WellKinded (r : Registry) : Fact → Prop
  | .member individual cls => r.IsIndividual individual ∧ r.IsClass cls
  | .link property subject object =>
    r.IsProperty property ∧ r.IsIndividual subject ∧ r.IsIndividual object

theorem Fact.WellKinded.mono (h : r.Extends r') {f : Fact} (hf : f.WellKinded r) :
    f.WellKinded r' := by
  cases f with
  | member individual cls => exact ⟨h.isIndividual hf.1, h.isClass hf.2⟩
  | link property subject object =>
    exact ⟨h.isProperty hf.1, h.isIndividual hf.2.1, h.isIndividual hf.2.2⟩

theorem Fact.WellKinded.isIndividual {f : Fact} (hf : f.WellKinded r) :
    ∀ id ∈ f.arguments, r.IsIndividual id := by
  cases f with
  | member individual cls => simpa [arguments] using hf.1
  | link property subject object => simpa [arguments] using hf.2

/-- Names are those of classes, and value restrictions join a property to an individual, at any
    depth. -/
inductive ClassExpr.WellKinded (r : Registry) : ClassExpr → Prop where
  | named {cls : EntityId} (hcls : r.IsClass cls) : WellKinded r (.named cls)
  | intersection {parts : List ClassExpr} (hparts : ∀ part ∈ parts, WellKinded r part) :
      WellKinded r (.intersection parts)
  | hasValue {property value : EntityId} (hproperty : r.IsProperty property)
      (hvalue : r.IsIndividual value) : WellKinded r (.hasValue property value)

theorem ClassExpr.WellKinded.mono (h : r.Extends r') {e : ClassExpr} (he : e.WellKinded r) :
    e.WellKinded r' := by
  induction he with
  | named hcls => exact .named (h.isClass hcls)
  | intersection _ ih => exact .intersection ih
  | hasValue hproperty hvalue => exact .hasValue (h.isProperty hproperty) (h.isIndividual hvalue)

/-- Every identifier of an axiom has the kind of its place. -/
def Axiom.WellKinded (r : Registry) : Axiom → Prop
  | .declaration entity => r.IsEntity entity
  | .subClassOf sub sup => sub.WellKinded r ∧ sup.WellKinded r
  | .equivalentClasses classes => ∀ e ∈ classes, e.WellKinded r
  | .disjointClasses classes => ∀ cls ∈ classes, r.IsClass cls

theorem Axiom.WellKinded.mono (h : r.Extends r') {a : Axiom} (ha : a.WellKinded r) :
    a.WellKinded r' := by
  cases a with
  | declaration entity => exact h.isEntity ha
  | subClassOf sub sup => exact ⟨ha.1.mono h, ha.2.mono h⟩
  | equivalentClasses classes => exact fun e he => (ha e he).mono h
  | disjointClasses classes => exact fun cls hcls => h.isClass (ha cls hcls)

theorem Axiom.WellKinded.expressions {a : Axiom} (ha : a.WellKinded r) :
    ∀ e ∈ a.expressions, e.WellKinded r := by
  cases a with
  | declaration entity => exact fun e he => absurd he List.not_mem_nil
  | subClassOf sub sup =>
    exact List.forall_mem_cons.2 ⟨ha.1, List.forall_mem_singleton.2 ha.2⟩
  | equivalentClasses classes => exact ha
  | disjointClasses classes => exact List.forall_mem_map.2 fun cls hcls => .named (ha cls hcls)

theorem Atom.Registered.mono (h : r.Extends r') {a : Atom EntityId} (ha : a.Registered r) :
    a.Registered r' where
  kind := by
    have hkind := ha.kind
    cases a with
    | member cls arg => exact h.isClass hkind
    | link property subject object => exact h.isProperty hkind
    | builtin op args => trivial
  constants id hid := h.isIndividual (ha.constants id hid)

/-! ## The entries of a document -/

namespace RegistryM

open Contract (meets_pure meets_get meets_mapM)

theorem meets_intern_kind (hr : r.WellFormed) (name : String) (kind : EntityKind) :
    Registry.contract.Meets r (intern name kind) fun r' id => r'.kind? id = some kind := by
  refine (Registry.meets_intern hr name kind).imp fun r' id hid => ?_
  rw [Registry.kind?, hid, Option.map_some]

/-- A name that is known as a property of either kind stays that property. -/
theorem meets_property (hr : r.WellFormed) (name : String) :
    Registry.contract.Meets r (property name) Registry.IsProperty := by
  have hnew : Registry.contract.Meets r (intern name .objectProperty) Registry.IsProperty :=
    (meets_intern_kind hr name .objectProperty).imp fun _ _ hid => ⟨_, hid, rfl⟩
  refine meets_get ?_
  cases hid : r.ids[name]? with
  | none => exact hnew
  | some id =>
    dsimp only
    split
    · next hproperty =>
      cases hkind : r.kind? id with
      | none => simp [hkind] at hproperty
      | some kind => exact meets_pure hr ⟨kind, hkind, by simpa [hkind] using hproperty⟩
    · exact hnew

mutual

theorem meets_classExpr : ∀ (entry : ClassEntry) {r : Registry}, r.WellFormed →
    Registry.contract.Meets r (classExpr entry) fun r' e => e.WellKinded r'
  | .named name, r, hr => by
    rw [classExpr]
    exact (meets_intern_kind hr name .cls).bind fun cls r₁ hr₁ _ hcls =>
      meets_pure hr₁ (.named hcls)
  | .intersection parts, r, hr => by
    rw [classExpr]
    exact (meets_classExprs parts hr).bind fun parts r₁ hr₁ _ hparts =>
      meets_pure hr₁ (.intersection hparts)
  | .hasValue property value, r, hr => by
    rw [classExpr]
    refine (meets_property hr property).bind fun property r₁ hr₁ _ hproperty => ?_
    refine (meets_intern_kind hr₁ value .individual).bind fun value r₂ hr₂ hext hvalue => ?_
    exact meets_pure hr₂ (.hasValue (hext.isProperty hproperty) hvalue)

theorem meets_classExprs : ∀ (entries : List ClassEntry) {r : Registry}, r.WellFormed →
    Registry.contract.Meets r (classExprs entries) fun r' es => ∀ e ∈ es, e.WellKinded r'
  | [], r, hr => by
    rw [classExprs]
    exact meets_pure hr (List.forall_mem_nil _)
  | part :: rest, r, hr => by
    rw [classExprs]
    refine (meets_classExpr part hr).bind fun part r₁ hr₁ _ hpart => ?_
    refine (meets_classExprs rest hr₁).bind fun rest r₂ hr₂ hext hrest => ?_
    exact meets_pure hr₂ (List.forall_mem_cons.2 ⟨hpart.mono hext, hrest⟩)

end

theorem meets_ofAxiomEntry (hr : r.WellFormed) (entry : AxiomEntry) :
    Registry.contract.Meets r (ofAxiomEntry entry) fun r' a => a.WellKinded r' := by
  cases entry with
  | subClassOf sub sup =>
    refine (meets_classExpr sub hr).bind fun sub r₁ hr₁ _ hsub => ?_
    refine (meets_classExpr sup hr₁).bind fun sup r₂ hr₂ hext hsup => ?_
    exact meets_pure hr₂ ⟨hsub.mono hext, hsup⟩
  | equivalentClasses classes =>
    exact (meets_classExprs classes hr).bind fun es r₁ hr₁ _ hes => meets_pure hr₁ hes
  | disjointClasses classes =>
    have hnames := meets_mapM (C := Registry.contract) (S := fun r' _ id => r'.IsClass id)
      (fun hext hid => hext.isClass hid)
      (fun name _ hr => meets_intern_kind hr name .cls) classes hr
    refine hnames.bind fun ids r₁ hr₁ _ hids => meets_pure hr₁ ?_
    exact forall_mem_of_forall₂ (P := fun _ => True) (Q := r₁.IsClass) (fun _ _ hid _ => hid) hids
      fun _ _ => trivial

theorem meets_ofFactEntry (hr : r.WellFormed) (entry : FactEntry) :
    Registry.contract.Meets r (ofFactEntry entry) fun r' f => f.WellKinded r' := by
  cases entry with
  | member individual cls =>
    refine (meets_intern_kind hr individual .individual).bind fun i r₁ hr₁ _ hi => ?_
    refine (meets_intern_kind hr₁ cls .cls).bind fun c r₂ hr₂ hext hc => ?_
    exact meets_pure hr₂ ⟨hext.kind?_eq hi, hc⟩
  | link subject property object =>
    refine (meets_property hr property).bind fun p r₁ hr₁ _ hp => ?_
    refine (meets_intern_kind hr₁ subject .individual).bind fun s r₂ hr₂ hext₂ hs => ?_
    refine (meets_intern_kind hr₂ object .individual).bind fun o r₃ hr₃ hext₃ ho => ?_
    exact meets_pure hr₃ ⟨hext₃.isProperty (hext₂.isProperty hp), hext₃.kind?_eq hs, ho⟩

end RegistryM

end HornOntology
