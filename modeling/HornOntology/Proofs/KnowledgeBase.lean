import HornOntology.Proofs.Kinds
import HornOntology.Proofs.Materialization

set_option autoImplicit false

/-! # What a knowledge base can come to hold

A knowledge base is changed by requests, and a request may be refused half way. Whatever the
requests and however they end, each identifier in it keeps the kind of its place, and no two rules
or queries have the same name (`KnowledgeBase.Reached.sound`), as long as the registry does not run
out of identifiers.

Requests that build are sequences of steps, and each step either only makes the registry grow or
adds one thing whose identifiers were just found or registered. Saturation stays within the
well-kinded facts because they are closed under every rule: a head has predicates and constants of
the right kinds, and its variables stand for arguments of facts. -/

namespace HornOntology

/-! ## Saturation -/

section Saturation

variable {r : Registry} {axioms : List Axiom}

theorem Hierarchy.isClass_of_mem_classes (hr : r.WellFormed)
    (haxioms : ∀ a ∈ axioms, a.WellKinded r) {cls : EntityId}
    (h : cls ∈ (build r axioms).classes) : r.IsClass cls := by
  rcases mem_classes_build_iff.1 h with hregistered | ⟨a, ha, hin⟩
  · obtain ⟨e, he, rfl⟩ := List.mem_map.1 hregistered
    obtain ⟨hmem, hkind⟩ := List.mem_filter.1 he
    rw [Registry.IsClass, Registry.kind?, hr.get?_eq_some_iff.2 ⟨hmem, rfl⟩]
    simpa using hkind
  · cases (haxioms a ha).expressions _ hin with
    | named hcls => exact hcls

theorem Hierarchy.registered_rules (hr : r.WellFormed) (haxioms : ∀ a ∈ axioms, a.WellKinded r) :
    ∀ rule ∈ (build r axioms).rules, ∀ a ∈ rule.body ++ rule.head, a.Registered r := by
  intro rule hrule
  obtain ⟨name, sub, sup, hpair, rfl⟩ := exists_of_mem_rules hrule
  obtain ⟨habove, hne⟩ := mem_subsumptions_build_iff.1 hpair
  obtain ⟨hsub, hsup⟩ := mem_classes_build_of_ne habove hne
  have hatom : ∀ cls, r.IsClass cls → (Atom.member cls (.var ⟨"x"⟩)).Registered r :=
    fun cls hcls => ⟨hcls, fun id hid => by simp [Atom.terms] at hid⟩
  refine List.forall_mem_cons.2 ⟨hatom sub ?_, List.forall_mem_singleton.2 (hatom sup ?_)⟩
  · exact isClass_of_mem_classes hr haxioms hsub
  · exact isClass_of_mem_classes hr haxioms hsup

/-- The well-kinded facts are closed under a rule whose head is registered. -/
theorem Rule.closedIn_wellKinded {rule : Rule EntityId} (hsafe : rule.Safe)
    (hhead : ∀ a ∈ rule.head, a.Registered r) : rule.ClosedIn r {f | f.WellKinded r} := by
  intro σ hfires atom hatom
  obtain ⟨hkind, hconstants⟩ := hhead atom hatom
  have hvalue : ∀ t ∈ atom.terms, r.IsIndividual (t.valueAt σ) := by
    intro t ht
    cases t with
    | const id => exact hconstants id ht
    | var v =>
      have hv : v ∈ atom.vars := List.mem_filterMap.2 ⟨_, ht, rfl⟩
      obtain ⟨f, hf, hmem⟩ := hfires.exists_argument ((hsafe atom hatom).2 v hv)
      exact Fact.WellKinded.isIndividual hf _ hmem
  cases atom with
  | member cls arg => exact ⟨hvalue arg List.mem_cons_self, hkind⟩
  | link property subject object =>
    exact ⟨hkind, hvalue subject List.mem_cons_self,
      hvalue object (List.mem_cons_of_mem _ List.mem_cons_self)⟩
  | builtin op args => cases (hsafe _ hatom).1

theorem saturate_wellKinded (strategy : Strategy) {rules : List (Rule EntityId)}
    (hsafe : ∀ rule ∈ rules, rule.Safe)
    (hatoms : ∀ rule ∈ rules, ∀ a ∈ rule.body ++ rule.head, a.Registered r) {store : FactStore}
    (hstore : ∀ f ∈ store.toList, f.WellKinded r) :
    ∀ f ∈ (saturate strategy r rules store).2.toList, f.WellKinded r := by
  refine (ended_saturate strategy r hsafe store).sound {f | f.WellKinded r} ⟨hstore, ?_⟩
  intro rule hrule
  exact Rule.closedIn_wellKinded (hsafe rule hrule) fun a ha =>
    hatoms rule hrule a (List.mem_append_right _ ha)

end Saturation

/-! ## Names in a list -/

section Names

variable {α : Type} {name : α → String}

theorem mem_of_mem_replaceOrAppend {a b : α} {l : List α} (h : b ∈ replaceOrAppend name a l) :
    b = a ∨ b ∈ l := by
  induction l with
  | nil => exact Or.inl (List.mem_singleton.1 h)
  | cons c l ih =>
    rw [replaceOrAppend] at h
    split at h
    · rcases List.mem_cons.1 h with hb | hb
      · exact Or.inl hb
      · exact Or.inr (List.mem_cons_of_mem _ hb)
    · rcases List.mem_cons.1 h with hb | hb
      · exact Or.inr (hb ▸ List.mem_cons_self)
      · exact (ih hb).imp_right (List.mem_cons_of_mem _)

/-- A name that is new comes last, and one that is not changes nothing. -/
theorem map_replaceOrAppend (name : α → String) (a : α) (l : List α) :
    (replaceOrAppend name a l).map name =
      if name a ∈ l.map name then l.map name else l.map name ++ [name a] := by
  induction l with
  | nil => rfl
  | cons b l ih =>
    rw [replaceOrAppend]
    by_cases hb : name b = name a
    · simp [hb]
    · simp only [hb, if_false, List.map_cons, ih, List.mem_cons, Ne.symm hb, false_or]
      split <;> rfl

theorem nodup_map_replaceOrAppend {a : α} {l : List α} (h : (l.map name).Nodup) :
    ((replaceOrAppend name a l).map name).Nodup := by
  rw [map_replaceOrAppend]
  split
  · exact h
  · next hnew =>
    refine List.nodup_append.2 ⟨h, List.nodup_singleton _, fun n hn n' hn' => ?_⟩
    rw [List.mem_singleton.1 hn']
    exact fun heq => hnew (heq ▸ hn)

end Names

/-! ## The invariant -/

namespace KnowledgeBase

/-- Every identifier is registered with the kind of its place, and names are not repeated. -/
structure WellKinded (kb : KnowledgeBase) : Prop where
  facts : ∀ f ∈ kb.store.toList, f.WellKinded kb.registry
  axioms : ∀ a ∈ kb.axiomList, a.WellKinded kb.registry
  rules : ∀ rule ∈ kb.rules, ∀ a ∈ rule.body ++ rule.head, a.Registered kb.registry
  queries : ∀ query ∈ kb.queries, ∀ a ∈ query.body, a.Registered kb.registry
  rule_names : (kb.rules.map Rule.name).Nodup
  query_names : (kb.queries.map Query.name).Nodup

/-- A knowledge base is well-kinded, over a registry that is well-formed and with rules that passed
    their check. -/
structure Sound (kb : KnowledgeBase) : Prop extends kb.WellKinded where
  registry : kb.registry.WellFormed
  built : ∀ rule ∈ kb.rules, rule.IsBuilt

theorem sound_create {config : Config} {kb : KnowledgeBase} (h : create config = .ok kb) :
    kb.Sound := by
  obtain ⟨_, -, h⟩ := exists_of_bind_eq_ok h
  cases h
  exact ⟨⟨by simp, by simp [axiomList], by simp, by simp, .nil, .nil⟩, Registry.wellFormed_empty,
    by simp⟩

namespace Sound

variable {kb : KnowledgeBase} (h : kb.Sound)

include h

/-- A registry that grows disturbs nothing. -/
theorem withRegistry {r : Registry} (hr : r.WellFormed) (hext : kb.registry.Extends r) :
    ({ kb with registry := r } : KnowledgeBase).Sound where
  facts f hf := (h.facts f hf).mono hext
  axioms a ha := (h.axioms a ha).mono hext
  rules rule hrule a ha := (h.rules rule hrule a ha).mono hext
  queries query hquery a ha := (h.queries query hquery a ha).mono hext
  rule_names := h.rule_names
  query_names := h.query_names
  registry := hr
  built := h.built

theorem addAxiom {a : Axiom} (ha : a.WellKinded kb.registry) : (kb.addAxiom a).Sound where
  __ := h
  axioms b hb := by
    rw [axiomList, KnowledgeBase.addAxiom, Array.toList_push, List.mem_append,
      List.mem_singleton] at hb
    rcases hb with hb | rfl
    · exact h.axioms b hb
    · exact ha

theorem assert {fact : Fact} (hfact : fact.WellKinded kb.registry) :
    ({ kb with store := kb.store.assert fact } : KnowledgeBase).Sound where
  __ := h
  facts f hf := by
    change f ∈ (kb.store.assert fact).factSet at hf
    rw [FactStore.factSet_assert] at hf
    rcases hf with rfl | hf
    · exact hfact
    · exact h.facts f hf

theorem addRule {rule : Rule EntityId} (hbuilt : rule.IsBuilt)
    (hatoms : ∀ a ∈ rule.body ++ rule.head, a.Registered kb.registry) :
    (kb.addRule rule).Sound where
  __ := h
  rules other hother := by
    rcases mem_of_mem_replaceOrAppend hother with rfl | hold
    · exact hatoms
    · exact h.rules other hold
  rule_names := nodup_map_replaceOrAppend h.rule_names
  built other hother := by
    rcases mem_of_mem_replaceOrAppend hother with rfl | hold
    · exact hbuilt
    · exact h.built other hold

theorem addQuery {query : Query EntityId}
    (hatoms : ∀ a ∈ query.body, a.Registered kb.registry) : (kb.addQuery query).Sound where
  __ := h
  queries other hother := by
    rcases mem_of_mem_replaceOrAppend hother with rfl | hold
    · exact hatoms
    · exact h.queries other hold
  query_names := nodup_map_replaceOrAppend h.query_names

theorem registered_activeRules :
    ∀ rule ∈ kb.activeRules, ∀ a ∈ rule.body ++ rule.head, a.Registered kb.registry := by
  intro rule hrule
  rcases mem_rules_of_mem_activeRules hrule with hown | hhierarchy
  · exact h.rules rule hown
  · exact Hierarchy.registered_rules h.registry h.axioms rule hhierarchy

theorem saturate : kb.saturate.2.Sound where
  __ := h
  facts := saturate_wellKinded kb.config.strategy
    (fun rule hrule => (isBuilt_activeRules h.built rule hrule).safe) h.registered_activeRules
    h.facts

end Sound

end KnowledgeBase

/-! ## Steps -/

namespace KnowledgeM

open Contract (meets_pure meets_get meets_of_run meets_modify meets_foldlM)

/-- Knowledge bases stay sound, and their registry only grows. -/
def contract : Contract Error KnowledgeBase where
  Good := KnowledgeBase.Sound
  Later kb kb' := kb.registry.Extends kb'.registry
  fatal := .registry .exhausted
  refl kb := Registry.Extends.refl kb.registry
  trans := Registry.Extends.trans

theorem run_onRegistry {α : Type} {act : RegistryM α} {kb : KnowledgeBase}
    {result : Except RegistryError α} {r : Registry} (h : act.run kb.registry = (result, r)) :
    (onRegistry act).run kb =
      (result.mapError .registry, { kb with registry := r }) := by
  rw [onRegistry, ExceptT.run_mk, h]

variable {kb : KnowledgeBase} (h : kb.Sound)

include h

theorem meets_onRegistry {α : Type} {act : RegistryM α} {Q : Registry → α → Prop}
    (hact : Registry.contract.Meets kb.registry act Q) :
    contract.Meets kb (onRegistry act) fun kb' a => Q kb'.registry a := by
  intro hleft
  have hrun : (act.run kb.registry).1 ≠ .error .exhausted :=
    fun hrun => hleft (congrArg (Except.mapError Error.registry) hrun)
  obtain ⟨hr, hext, hresult⟩ := hact hrun
  exact ⟨h.withRegistry hr hext, hext, fun a ha => hresult a (eq_ok_of_mapError ha)⟩

theorem meets_declare (name : String) (kind : EntityKind) :
    contract.Meets kb (declare name kind) fun _ _ => True := by
  refine (meets_onRegistry h (RegistryM.meets_intern_kind h.registry name kind)).bind
    fun id kb₁ h₁ _ hid => ?_
  have hdeclared : (Axiom.declaration id).WellKinded kb₁.registry := ⟨kind, hid⟩
  refine (meets_modify (h₁.addAxiom hdeclared) (Registry.Extends.refl _)).bind
    fun _ kb₂ h₂ _ _ => ?_
  exact meets_pure h₂ trivial

theorem meets_assert {fact : Fact} (hfact : fact.WellKinded kb.registry) :
    contract.Meets kb (assert fact) fun _ _ => True := by
  refine meets_get ?_
  refine (meets_modify (h.assert hfact) (Registry.Extends.refl _)).bind fun _ kb₁ h₁ _ _ => ?_
  exact meets_pure h₁ trivial

/-- Reading a text only makes the registry grow. -/
theorem sound_of_commit {α β : Type} {constants : α → List Constant} {intern : α → RegistryM β}
    {S : Registry → α → β → Prop} (hintern : Settles intern S) {plain : Except Error α}
    {reading : RuleText.Reading α} (hreading : RuleText.Follows kb.registry
      (fun met draft => freshNames met = freshNames (constants draft)) plain reading)
    {result : Except Error β} {r : Registry}
    (hcommit : commit intern kb.registry reading = (result, r))
    (hleft : result ≠ .error (.registry .exhausted)) :
    ({ kb with registry := r } : KnowledgeBase).Sound ∧ kb.registry.Extends r := by
  obtain ⟨hr, hext⟩ := commit_extends hintern h.registry hreading hcommit hleft
  exact ⟨h.withRegistry hr hext, hext⟩

theorem meets_addRuleText (name text : String) :
    contract.Meets kb (addRuleText name text) fun _ _ => True := by
  have hreading := RuleText.follows_readRule h.registry.indexed name text
  rcases hparse : Rule.parse kb.registry name text with ⟨e | rule, r⟩
  · have hrun : (addRuleText name text).run kb = (.error e, { kb with registry := r }) := by
      simp only [addRuleText, ExceptT.run_mk, hparse]
    refine meets_of_run hrun fun hleft =>
      sound_of_commit h Registry.settles_intern.rule hreading hparse ?_
    exact fun he => hleft (congrArg _ (Except.error.inj he))
  · have hrun : (addRuleText name text).run kb =
        (.ok (), { kb with registry := r }.addRule rule) := by
      simp only [addRuleText, ExceptT.run_mk, hparse]
    refine meets_of_run hrun fun _ => ?_
    obtain ⟨hgrown, hext⟩ :=
      sound_of_commit h Registry.settles_intern.rule hreading hparse (by simp)
    obtain ⟨-, -, hvalid, -, -, hproper⟩ := Rule.of_parse h.registry hparse
    exact ⟨hgrown.addRule ⟨_, _, _, hvalid.ofParts⟩ fun a ha => (hproper a ha).registered, hext⟩

theorem meets_addQueryText (name text : String) :
    contract.Meets kb (addQueryText name text) fun _ _ => True := by
  have hreading := RuleText.follows_readQuery h.registry.indexed name text
  rcases hparse : Query.parse kb.registry name text with ⟨e | query, r⟩
  · have hrun : (addQueryText name text).run kb = (.error e, { kb with registry := r }) := by
      simp only [addQueryText, ExceptT.run_mk, hparse]
    refine meets_of_run hrun fun hleft =>
      sound_of_commit h Registry.settles_intern.query hreading hparse ?_
    exact fun he => hleft (congrArg _ (Except.error.inj he))
  · have hrun : (addQueryText name text).run kb =
        (.ok (), { kb with registry := r }.addQuery query) := by
      simp only [addQueryText, ExceptT.run_mk, hparse]
    refine meets_of_run hrun fun _ => ?_
    obtain ⟨hgrown, hext⟩ :=
      sound_of_commit h Registry.settles_intern.query hreading hparse (by simp)
    obtain ⟨-, -, -, -, hproper, -⟩ := Query.of_parse h.registry hparse
    exact ⟨hgrown.addQuery fun a ha => (hproper a ha).registered, hext⟩

theorem meets_addItem (item : DocumentItem) :
    contract.Meets kb (addItem item) fun _ _ => True := by
  cases item with
  | declaration name kind =>
    exact (meets_declare h name kind).bind fun _ kb₁ h₁ _ _ => meets_pure h₁ trivial
  | axiomatic entry =>
    refine (meets_onRegistry h (RegistryM.meets_ofAxiomEntry h.registry entry)).bind
      fun a kb₁ h₁ _ ha => ?_
    refine (meets_modify (h₁.addAxiom ha) (Registry.Extends.refl _)).bind fun _ kb₂ h₂ _ _ => ?_
    exact meets_pure h₂ trivial
  | fact entry =>
    refine (meets_onRegistry h (RegistryM.meets_ofFactEntry h.registry entry)).bind
      fun f kb₁ h₁ _ hf => ?_
    exact (meets_assert h₁ hf).bind fun _ kb₂ h₂ _ _ => meets_pure h₂ trivial
  | rule entry =>
    exact (meets_addRuleText h entry.name entry.text).bind fun _ kb₁ h₁ _ _ =>
      meets_pure h₁ trivial
  | query entry =>
    exact (meets_addQueryText h entry.name entry.text).bind fun _ kb₁ h₁ _ _ =>
      meets_pure h₁ trivial

theorem meets_load (document : Document) :
    contract.Meets kb (load document) fun _ _ => True := by
  refine meets_foldlM document.items (fun summary item kb₁ h₁ => ?_) LoadSummary.zero h
  exact (meets_addItem h₁ item).bind fun _ kb₂ h₂ _ _ => meets_pure h₂ trivial

end KnowledgeM

/-! ## Requests -/

/-- What can be asked of a knowledge base that changes it. -/
inductive Request where
  | declare (name : String) (kind : EntityKind)
  | load (document : Document)
  | addRule (name text : String)
  | addQuery (name text : String)
  | saturate

/-- Carry a request out. -/
def Request.perform : Request → KnowledgeM Unit
  | declare name kind => do let _ ← KnowledgeM.declare name kind
  | load document => do let _ ← KnowledgeM.load document
  | addRule name text => KnowledgeM.addRuleText name text
  | addQuery name text => KnowledgeM.addQueryText name text
  | saturate => modify fun kb => kb.saturate.2

theorem Request.meets_perform {kb : KnowledgeBase} (h : kb.Sound) (request : Request) :
    KnowledgeM.contract.Meets kb request.perform fun _ _ => True := by
  cases request with
  | declare name kind =>
    exact (KnowledgeM.meets_declare h name kind).bind fun _ kb₁ h₁ _ _ =>
      Contract.meets_pure h₁ trivial
  | load document =>
    exact (KnowledgeM.meets_load h document).bind fun _ kb₁ h₁ _ _ =>
      Contract.meets_pure h₁ trivial
  | addRule name text => exact KnowledgeM.meets_addRuleText h name text
  | addQuery name text => exact KnowledgeM.meets_addQueryText h name text
  | saturate => exact Contract.meets_modify h.saturate (Registry.Extends.refl kb.registry)

namespace KnowledgeBase

/-- The knowledge bases that requests lead to from an empty one, refused ones among them, as long
    as none is refused for want of an identifier. -/
inductive Reached : KnowledgeBase → Prop where
  | create {config : Config} {kb : KnowledgeBase} (h : create config = .ok kb) : Reached kb
  | perform {kb : KnowledgeBase} (request : Request) (h : Reached kb)
      (hleft : (request.perform.run kb).1 ≠ .error (.registry .exhausted)) :
      Reached (request.perform.run kb).2

theorem Reached.sound {kb : KnowledgeBase} (h : kb.Reached) : kb.Sound := by
  induction h with
  | create h => exact sound_create h
  | perform request _ hleft ih => exact (request.meets_perform ih hleft).1

end KnowledgeBase

/-- **Kinds and names are kept.** Whatever requests were made of a knowledge base, in whatever
    order and with whatever success: its facts, axioms, rules and queries use registered entities
    only, each of the kind that its place asks for, and no two rules and no two queries have the
    same name. -/
theorem wellKinded_of_reached {kb : KnowledgeBase} (h : kb.Reached) : kb.WellKinded :=
  h.sound.toWellKinded

/-! ## A request that is refused -/

namespace Visits

def place : EntityId := .nth 0

def lyon : EntityId := .nth 1

/-- Nothing is known. -/
def start : KnowledgeBase := ⟨.standard, .empty, #[], .empty, [], []⟩

/-- There is a class. -/
def declared : KnowledgeBase :=
  { start with
    registry := (Registry.empty.intern "Place" .cls).2
    axioms := #[.declaration place] }

/-- The class has a member. -/
def loaded : KnowledgeBase :=
  { declared with
    registry := (declared.registry.intern "lyon" .individual).2
    store := FactStore.empty.assert (.member lyon place) }

def document : Document := ⟨⟨[], [], [], []⟩, [], [.member "lyon" "Place"], [], []⟩

theorem intern_place : Registry.empty.intern "Place" .cls = (.ok place, declared.registry) ∧
    declared.registry.Built ∧ declared.registry.all = [⟨place, .cls, "Place"⟩] := by
  obtain ⟨hbuilt, hrun, hall⟩ := @Registry.Built.intern_new _ .empty "Place" .cls place rfl
    (by simp [Registry.empty, Registry.all])
  exact ⟨Prod.ext hrun rfl, hbuilt, hall⟩

theorem intern_lyon :
    declared.registry.intern "lyon" .individual = (.ok lyon, loaded.registry) ∧
      loaded.registry.Built ∧
      loaded.registry.all = [⟨place, .cls, "Place"⟩, ⟨lyon, .individual, "lyon"⟩] := by
  obtain ⟨-, hbuilt, hall⟩ := intern_place
  obtain ⟨hbuilt', hrun, hall'⟩ := @Registry.Built.intern_new _ hbuilt "lyon" .individual lyon
    (by rw [hall]; rfl) (by rw [hall]; decide)
  rw [hall] at hall'
  exact ⟨Prod.ext hrun rfl, hbuilt', hall'⟩

theorem run_declare : (Request.declare "Place" .cls).perform.run start = (.ok (), declared) := by
  have hintern : (RegistryM.intern "Place" .cls).run start.registry =
      (.ok place, declared.registry) := intern_place.1
  rw [Request.perform, KnowledgeM.declare, bind_assoc,
    run_bind_of_ok (KnowledgeM.run_onRegistry hintern)]
  rfl

/-- The name of the class is not the name of an individual. -/
theorem run_declare_again : (Request.declare "Place" .individual).perform.run declared =
    (.error (.registry (.kindConflict "Place" .cls .individual)), declared) := by
  obtain ⟨-, hbuilt, hall⟩ := intern_place
  have hintern : (RegistryM.intern "Place" .individual).run declared.registry =
      (.error (.kindConflict "Place" .cls .individual), declared.registry) :=
    @Registry.WellFormed.intern_name _ hbuilt.wellFormed ⟨place, .cls, "Place"⟩
      (by rw [hall]; exact List.mem_cons_self) .individual
  rw [Request.perform, KnowledgeM.declare, bind_assoc,
    run_bind_of_error (KnowledgeM.run_onRegistry hintern)]

theorem run_load : (Request.load document).perform.run declared = (.ok (), loaded) := by
  obtain ⟨hlyon, hbuilt, hall⟩ := intern_lyon
  have hfact : (RegistryM.ofFactEntry (.member "lyon" "Place")).run declared.registry =
      (.ok (.member lyon place), loaded.registry) := by
    have hfirst : (RegistryM.intern "lyon" .individual).run declared.registry =
        (.ok lyon, loaded.registry) := hlyon
    have hsecond : (RegistryM.intern "Place" .cls).run loaded.registry =
        (.ok place, loaded.registry) :=
      @Registry.WellFormed.intern_name _ hbuilt.wellFormed ⟨place, .cls, "Place"⟩
        (by rw [hall]; exact List.mem_cons_self) .cls
    rw [RegistryM.ofFactEntry, run_bind_of_ok hfirst, run_bind_of_ok hsecond]
    rfl
  obtain ⟨summary, hitem⟩ : ∃ summary, (KnowledgeM.addItem (.fact (.member "lyon" "Place"))).run
      declared = (.ok summary, loaded) := by
    rw [KnowledgeM.addItem, run_bind_of_ok (KnowledgeM.run_onRegistry hfact)]
    exact ⟨_, rfl⟩
  have hload : (KnowledgeM.load document).run declared =
      (.ok (LoadSummary.zero + summary), loaded) := by
    rw [KnowledgeM.load, KnowledgeM.addItems,
      show document.items = [.fact (.member "lyon" "Place")] from rfl, List.foldlM_cons,
      bind_assoc, run_bind_of_ok hitem]
    rfl
  rw [Request.perform, run_bind_of_ok hload]
  rfl

end Visits

/-- A class is declared, its name is refused for an individual, it is given a member, and the
    knowledge base is saturated. -/
theorem wellKinded_of_reached_visits :
    (Request.declare "Place" .individual).perform.run Visits.declared =
        (.error (.registry (.kindConflict "Place" .cls .individual)), Visits.declared) ∧
      Visits.loaded.store.toList = [.member Visits.lyon Visits.place] ∧
      Visits.loaded.saturate.2.WellKinded := by
  have hstart : Visits.start.Reached := @KnowledgeBase.Reached.create .standard _ rfl
  have hdeclared : Visits.declared.Reached := by
    have h := hstart.perform (.declare "Place" .cls) (by rw [Visits.run_declare]; simp)
    rwa [Visits.run_declare] at h
  have hagain : Visits.declared.Reached := by
    have h := hdeclared.perform (.declare "Place" .individual)
      (by rw [Visits.run_declare_again]; simp)
    rwa [Visits.run_declare_again] at h
  have hloaded : Visits.loaded.Reached := by
    have h := hagain.perform (.load Visits.document) (by rw [Visits.run_load]; simp)
    rwa [Visits.run_load] at h
  refine ⟨Visits.run_declare_again, by simp [Visits.loaded, FactStore.toList_assert], ?_⟩
  exact wellKinded_of_reached (hloaded.perform .saturate (by decide))

end HornOntology
