import HornOntology.Proofs.Calls
import HornOntology.Proofs.Exhaustion
import HornOntology.Proofs.FactStore
import HornOntology.Proofs.KnowledgeBase

set_option autoImplicit false

/-! # What loading a document leaves

A document is loaded item by item. A load that is refused stops at one item and leaves what the
items before it gave: the refused item adds no axiom, fact, rule or query, however far it came. Only
the registry may show it, since the names of an axiom or a fact are interned one by one and those
that were granted stay. A declaration, a rule or a query that is refused does not show even there
(`load_leaves`, `KnowledgeBase.AfterRefusal.eq_of_no_leftovers`).

The registry is so as long as there are identifiers. A declaration that is refused for want of one
turns its counter back, and then a name that was granted within a refused item stands in the place
of another entity (`load_leaves_overfull`).

A step either is refused by the registry, before anything else has changed, or by a text, which
leaves the registry alone (`KnowledgeM.afterRefusal_addItem`); a step that is accepted adds what it
reports (`KnowledgeM.growsBy_addItem`). -/

namespace HornOntology

/-! ## The first items of a document -/

/-- The first `n` declarations, in the order in which they are declared. -/
def Declarations.take (n : Nat) (d : Declarations) : Declarations where
  classes := d.classes.take n
  objectProperties := d.objectProperties.take (n - d.classes.length)
  dataProperties := d.dataProperties.take (n - d.classes.length - d.objectProperties.length)
  individuals := d.individuals.take
    (n - d.classes.length - d.objectProperties.length - d.dataProperties.length)

/-- The document cut down to its first `n` items. -/
def Document.take (n : Nat) (d : Document) : Document where
  declarations := d.declarations.take n
  axioms := d.axioms.take (n - d.declarations.items.length)
  facts := d.facts.take (n - d.declarations.items.length - d.axioms.length)
  rules := d.rules.take (n - d.declarations.items.length - d.axioms.length - d.facts.length)
  queries := d.queries.take
    (n - d.declarations.items.length - d.axioms.length - d.facts.length - d.rules.length)

theorem Declarations.items_take (n : Nat) (d : Declarations) :
    (d.take n).items = d.items.take n := by
  simp [items, take, List.take_append, List.map_take, Nat.sub_sub, Nat.add_assoc]

theorem Document.items_take (n : Nat) (d : Document) : (d.take n).items = d.items.take n := by
  simp [items, take, Declarations.items_take, List.take_append, List.map_take, Nat.sub_sub,
    Nat.add_assoc]

/-- The names that may stay in the registry when an item is refused. -/
def DocumentItem.leftovers : DocumentItem → List String
  | declaration _ _ => []
  | axiomatic entry => entry.names
  | fact entry => entry.names
  | rule _ => []
  | query _ => []

/-- Whether an item is written as a text. -/
def DocumentItem.isText : DocumentItem → Bool
  | declaration _ _ => false
  | axiomatic _ => false
  | fact _ => false
  | rule _ => true
  | query _ => true

/-! ## Items -/

namespace KnowledgeBase

variable {kb kb₁ kb' : KnowledgeBase}

/-- What a refused item leaves: the registry may have names that the item leaves over, after all
    entities that it had, and everything else is as it was. If there was no identifier to give,
    also the supply has moved on. A text does not show in the registry. -/
structure AfterRefusal (kb : KnowledgeBase) (item : DocumentItem) (e : Error)
    (kb' : KnowledgeBase) : Prop where
  config_eq : kb'.config = kb.config
  axioms_eq : kb'.axioms = kb.axioms
  store_eq : kb'.store = kb.store
  rules_eq : kb'.rules = kb.rules
  queries_eq : kb'.queries = kb.queries
  registry : ∃ r, kb.registry.Gains item.leftovers r ∧
    (kb.registry.Built → r.Built ∧ ∃ added, r.all = kb.registry.all ++ added ∧
      ∀ entity ∈ added, entity.name ∈ item.leftovers) ∧
    (kb'.registry = r ∨
      e = .registry .exhausted ∧ kb'.registry = { r with supply := r.supply.take.2 })
  registry_eq_of_isText : item.isText = true → kb'.registry = kb.registry

/-- The axioms and the facts have grown at their ends, by as many as the summary says. -/
structure GrowsBy (kb : KnowledgeBase) (summary : LoadSummary) (kb' : KnowledgeBase) : Prop where
  axioms : ∃ added, kb'.axiomList = kb.axiomList ++ added ∧ added.length = summary.axioms
  facts : ∃ added, kb'.store.toList = kb.store.toList ++ added ∧ added.length = summary.facts

theorem afterRefusal_of_gains {item : DocumentItem} {e : Error} {r r' : Registry}
    (hgains : kb.registry.Gains item.leftovers r)
    (hend : r' = r ∨ e = .registry .exhausted ∧ r' = { r with supply := r.supply.take.2 })
    (htext : item.isText = true → r' = kb.registry) :
    kb.AfterRefusal item e { kb with registry := r' } where
  config_eq := rfl
  axioms_eq := rfl
  store_eq := rfl
  rules_eq := rfl
  queries_eq := rfl
  registry := ⟨r, hgains, fun hbuilt => ⟨hgains.built hbuilt, hgains.exists_added hbuilt⟩, hend⟩
  registry_eq_of_isText := htext

/-- A refused item that leaves no names over leaves the knowledge base as it was. -/
theorem AfterRefusal.eq_of_no_leftovers {item : DocumentItem} {e : Error}
    (h : kb.AfterRefusal item e kb') (hitem : item.leftovers = []) (he : e ≠ .registry .exhausted) :
    kb' = kb := by
  obtain ⟨r, hgains, -, heq | ⟨hexhausted, -⟩⟩ := h.registry
  · rw [hitem, Registry.gains_nil_iff] at hgains
    have hregistry : kb'.registry = kb.registry := heq.trans hgains
    cases kb
    cases kb'
    cases hregistry
    cases h.config_eq
    cases h.axioms_eq
    cases h.store_eq
    cases h.rules_eq
    cases h.queries_eq
    rfl
  · exact absurd hexhausted he

theorem growsBy_of_eq (haxioms : kb'.axioms = kb.axioms) (hstore : kb'.store = kb.store)
    (rules queries : Nat) : kb.GrowsBy ⟨0, 0, rules, queries⟩ kb' := by
  refine ⟨⟨[], ?_, rfl⟩, ⟨[], ?_, rfl⟩⟩
  · rw [axiomList, haxioms, List.append_nil, axiomList]
  · rw [hstore, List.append_nil]

theorem GrowsBy.trans {summary summary' : LoadSummary} (h : kb.GrowsBy summary kb₁)
    (h' : kb₁.GrowsBy summary' kb') : kb.GrowsBy (summary + summary') kb' := by
  obtain ⟨⟨axioms, haxioms, hlength⟩, facts, hfacts, hcount⟩ := h
  obtain ⟨⟨axioms', haxioms', hlength'⟩, facts', hfacts', hcount'⟩ := h'
  refine ⟨⟨axioms ++ axioms', ?_, ?_⟩, facts ++ facts', ?_, ?_⟩
  · rw [haxioms', haxioms, List.append_assoc]
  · rw [List.length_append, hlength, hlength']
    rfl
  · rw [hfacts', hfacts, List.append_assoc]
  · rw [List.length_append, hcount, hcount']
    rfl

theorem growsBy_addAxiom (kb : KnowledgeBase) (r : Registry) (a : Axiom) :
    kb.GrowsBy { LoadSummary.zero with axioms := 1 } ({ kb with registry := r }.addAxiom a) :=
  ⟨⟨[a], Array.toList_push, rfl⟩, ⟨[], (List.append_nil _).symm, rfl⟩⟩

theorem growsBy_learn (kb : KnowledgeBase) (r : Registry) (fact : Fact) :
    kb.GrowsBy { LoadSummary.zero with facts := if (kb.store.learn fact).1 then 1 else 0 }
      { kb with registry := r, store := (kb.store.learn fact).2 } := by
  refine ⟨⟨[], (List.append_nil _).symm, rfl⟩, ?_⟩
  have hstore : (kb.store.learn fact).2.toList = _ := kb.store.toList_assert fact
  by_cases hold : fact ∈ kb.store.toList
  · refine ⟨[], ?_, ?_⟩
    · rw [hstore, if_pos hold, List.append_nil]
    · rw [if_neg fun hnew => (kb.store.learn_fst_eq_true_iff fact).1 hnew hold]
      rfl
  · refine ⟨[fact], ?_, ?_⟩
    · rw [hstore, if_neg hold]
    · rw [if_pos ((kb.store.learn_fst_eq_true_iff fact).2 hold)]
      rfl

end KnowledgeBase

namespace KnowledgeM

variable {α β : Type} {kb kb' : KnowledgeBase} {e : Error}

/-- Where only the registry refuses, nothing but the registry has changed. -/
theorem exists_of_onRegistry_bind_error {act : RegistryM α} {f : α → KnowledgeM β}
    (hf : ∀ a kb, ∃ b kb', (f a).run kb = (.ok b, kb'))
    (h : (onRegistry act >>= f).run kb = (.error e, kb')) :
    ∃ cause r, act.run kb.registry = (.error cause, r) ∧ e = .registry cause ∧
      kb' = { kb with registry := r } := by
  rcases hact : act.run kb.registry with ⟨cause | a, r⟩
  · rw [run_bind_of_error (run_onRegistry hact)] at h
    cases h
    exact ⟨cause, r, rfl, rfl, rfl⟩
  · rw [run_bind_of_ok (run_onRegistry hact)] at h
    obtain ⟨b, kb₁, hok⟩ := hf a { kb with registry := r }
    cases hok.symm.trans h

theorem exists_of_onRegistry_bind_ok {act : RegistryM α} {f : α → KnowledgeM β} {b : β}
    (h : (onRegistry act >>= f).run kb = (.ok b, kb')) :
    ∃ a r, act.run kb.registry = (.ok a, r) ∧
      (f a).run { kb with registry := r } = (.ok b, kb') := by
  rcases hact : act.run kb.registry with ⟨cause | a, r⟩
  · rw [run_bind_of_error (run_onRegistry hact)] at h
    cases h
  · rw [run_bind_of_ok (run_onRegistry hact)] at h
    exact ⟨a, r, rfl, h⟩

/-- Names that were granted before the refusal are names of the item. -/
theorem afterRefusal_of_registersOnly {item : DocumentItem} (hitem : item.isText = false)
    {act : RegistryM α} {cause : RegistryError} {r : Registry}
    (hact : act.RegistersOnly item.leftovers)
    (hrun : act.run kb.registry = (.error cause, r)) :
    kb.AfterRefusal item (.registry cause) { kb with registry := r } := by
  obtain ⟨r₁, hgains, hend⟩ := hact kb.registry
  rw [hrun] at hend
  refine KnowledgeBase.afterRefusal_of_gains hgains (hend.imp_right (And.imp_left fun he => ?_)) ?_
  · rw [Except.error.inj he]
  · intro htext
    cases hitem.symm.trans htext

theorem afterRefusal_addRuleText {entry : TextEntry} (hr : kb.registry.Reachable)
    (h : (addRuleText entry.name entry.text).run kb = (.error e, kb')) :
    kb.AfterRefusal (.rule entry) e kb' := by
  rcases hparse : Rule.parse kb.registry entry.name entry.text with ⟨e' | rule, r⟩
  · simp only [addRuleText, ExceptT.run_mk, hparse] at h
    cases h
    have hsame := hr.eq_of_commit_error (Rule.discard_mapConstM Constant.intern)
      (RuleText.follows_readRule hr.indexed _ _) (fun _ => RuleText.offers_of_readRule) hparse
    exact KnowledgeBase.afterRefusal_of_gains .refl (.inl hsame) fun _ => hsame
  · simp only [addRuleText, ExceptT.run_mk, hparse] at h
    cases h

theorem afterRefusal_addQueryText {entry : TextEntry} (hr : kb.registry.Reachable)
    (h : (addQueryText entry.name entry.text).run kb = (.error e, kb')) :
    kb.AfterRefusal (.query entry) e kb' := by
  rcases hparse : Query.parse kb.registry entry.name entry.text with ⟨e' | query, r⟩
  · simp only [addQueryText, ExceptT.run_mk, hparse] at h
    cases h
    have hsame := hr.eq_of_commit_error (Query.discard_mapConstM Constant.intern)
      (RuleText.follows_readQuery hr.indexed _ _) (fun _ => RuleText.offers_of_readQuery) hparse
    exact KnowledgeBase.afterRefusal_of_gains .refl (.inl hsame) fun _ => hsame
  · simp only [addQueryText, ExceptT.run_mk, hparse] at h
    cases h

theorem afterRefusal_addItem {item : DocumentItem} (hr : kb.registry.Reachable)
    (h : (addItem item).run kb = (.error e, kb')) : kb.AfterRefusal item e kb' := by
  cases item with
  | declaration name kind =>
    rw [addItem, declare, bind_assoc] at h
    obtain ⟨cause, r, hrun, rfl, rfl⟩ :=
      exists_of_onRegistry_bind_error (fun a kb => ⟨_, _, rfl⟩) h
    have hend := Registry.intern_of_error hrun
    exact KnowledgeBase.afterRefusal_of_gains .refl
      (hend.imp_right (And.imp_left fun he => congrArg _ he)) fun htext => by cases htext
  | axiomatic entry =>
    rw [addItem] at h
    obtain ⟨cause, r, hrun, rfl, rfl⟩ :=
      exists_of_onRegistry_bind_error (fun a kb => ⟨_, _, rfl⟩) h
    exact afterRefusal_of_registersOnly rfl (RegistryM.registersOnly_ofAxiomEntry entry) hrun
  | fact entry =>
    rw [addItem] at h
    obtain ⟨cause, r, hrun, rfl, rfl⟩ :=
      exists_of_onRegistry_bind_error (fun a kb => ⟨_, _, rfl⟩) h
    exact afterRefusal_of_registersOnly rfl (RegistryM.registersOnly_ofFactEntry entry) hrun
  | rule entry => exact afterRefusal_addRuleText hr (run_bind_pure_eq_error_iff.1 h)
  | query entry => exact afterRefusal_addQueryText hr (run_bind_pure_eq_error_iff.1 h)

theorem of_addRuleText_ok {name text : String}
    (h : (addRuleText name text).run kb = (.ok (), kb')) :
    kb'.axioms = kb.axioms ∧ kb'.store = kb.store ∧
      ∃ names, kb.registry.Gains names kb'.registry := by
  rcases hparse : Rule.parse kb.registry name text with ⟨e | rule, r⟩
  · simp only [addRuleText, ExceptT.run_mk, hparse] at h
    cases h
  · simp only [addRuleText, ExceptT.run_mk, hparse] at h
    cases h
    exact ⟨rfl, rfl,
      Registry.exists_gains_of_commit (Rule.discard_mapConstM Constant.intern) hparse⟩

theorem of_addQueryText_ok {name text : String}
    (h : (addQueryText name text).run kb = (.ok (), kb')) :
    kb'.axioms = kb.axioms ∧ kb'.store = kb.store ∧
      ∃ names, kb.registry.Gains names kb'.registry := by
  rcases hparse : Query.parse kb.registry name text with ⟨e | query, r⟩
  · simp only [addQueryText, ExceptT.run_mk, hparse] at h
    cases h
  · simp only [addQueryText, ExceptT.run_mk, hparse] at h
    cases h
    exact ⟨rfl, rfl,
      Registry.exists_gains_of_commit (Query.discard_mapConstM Constant.intern) hparse⟩

theorem growsBy_addItem {item : DocumentItem} {summary : LoadSummary}
    (h : (addItem item).run kb = (.ok summary, kb')) :
    kb.GrowsBy summary kb' ∧ ∃ names, kb.registry.Gains names kb'.registry := by
  cases item with
  | declaration name kind =>
    rw [addItem, declare, bind_assoc] at h
    obtain ⟨id, r, hrun, hrest⟩ := exists_of_onRegistry_bind_ok h
    cases hrest
    refine ⟨kb.growsBy_addAxiom r _, [name], ?_⟩
    exact (RegistryM.registersOnly_intern List.mem_cons_self kind).gains hrun
  | axiomatic entry =>
    obtain ⟨a, r, hrun, hrest⟩ := exists_of_onRegistry_bind_ok h
    cases hrest
    exact ⟨kb.growsBy_addAxiom r a, _, (RegistryM.registersOnly_ofAxiomEntry entry).gains hrun⟩
  | fact entry =>
    obtain ⟨f, r, hrun, hrest⟩ := exists_of_onRegistry_bind_ok h
    cases hrest
    exact ⟨kb.growsBy_learn r f, _, (RegistryM.registersOnly_ofFactEntry entry).gains hrun⟩
  | rule entry =>
    obtain ⟨_, hrun, rfl⟩ := run_bind_pure_eq_ok_iff.1 h
    obtain ⟨haxioms, hstore, hgains⟩ := of_addRuleText_ok hrun
    exact ⟨KnowledgeBase.growsBy_of_eq haxioms hstore _ _, hgains⟩
  | query entry =>
    obtain ⟨_, hrun, rfl⟩ := run_bind_pure_eq_ok_iff.1 h
    obtain ⟨haxioms, hstore, hgains⟩ := of_addQueryText_ok hrun
    exact ⟨KnowledgeBase.growsBy_of_eq haxioms hstore _ _, hgains⟩

theorem growsBy_load {document : Document} {summary : LoadSummary}
    (h : (load document).run kb = (.ok summary, kb')) : kb.GrowsBy summary kb' := by
  refine of_run_foldlM_ok (fun summary kb₁ => kb.GrowsBy summary kb₁) ?_
    (KnowledgeBase.growsBy_of_eq rfl rfl 0 0) h
  intro summary item kb₁ summary' kb₂ hgrows hrun
  obtain ⟨added, hadd, rfl⟩ := run_bind_pure_eq_ok_iff.1 hrun
  exact hgrows.trans (growsBy_addItem hadd).1

/-- What granted calls keep is kept by a load that is accepted. -/
theorem registry_of_load {P : Registry → Prop}
    (hP : ∀ {names r r'}, Registry.Gains names r r' → P r → P r') {document : Document}
    {summary : LoadSummary} (h : (load document).run kb = (.ok summary, kb'))
    (hkb : P kb.registry) : P kb'.registry := by
  refine of_run_foldlM_ok (fun _ kb₁ => P kb₁.registry) ?_ hkb h
  intro summary item kb₁ summary' kb₂ hkb₁ hrun
  obtain ⟨added, hadd, -⟩ := run_bind_pure_eq_ok_iff.1 hrun
  obtain ⟨names, hgains⟩ := (growsBy_addItem hadd).2
  exact hP hgains hkb₁

end KnowledgeM

/-! ## Documents -/

open KnowledgeM

/-- **A refused document is loaded up to the refused item.** Loading stops at some item. The
    document up to that item is accepted, and it leaves the same axioms, facts, rules and queries;
    the registry differs by names of that item only, and by none if it is a declaration, a rule or
    a query. These names were appended if the identifiers have not run out before, and the supply
    has not moved unless they have run out now. Loading any longer part of the document ends in the
    same way. If a document is accepted, its summary tells by how much the axioms and the facts have
    grown. -/
theorem load_leaves (kb : KnowledgeBase) (hr : kb.registry.Reachable) (document : Document) :
    match (load document).run kb with
    | (.error e, kb') => ∃ k item summary kb₁, document.items[k]? = some item ∧
        (load (document.take k)).run kb = (.ok summary, kb₁) ∧ kb₁.AfterRefusal item e kb' ∧
        (kb.registry.Built → kb₁.registry.Built) ∧
        ∀ j, k < j → (load (document.take j)).run kb = (.error e, kb')
    | (.ok summary, kb') => kb.GrowsBy summary kb' := by
  rcases hload : (load document).run kb with ⟨e | summary, kb'⟩
  · obtain ⟨k, item, summary, kb₁, hitem, hbefore, hrefused, hafter⟩ :=
      exists_of_run_foldlM_error hload
    simp only [← Document.items_take] at hbefore hafter
    have hr₁ : kb₁.registry.Reachable := registry_of_load Registry.Gains.reachable hbefore hr
    exact ⟨k, item, summary, kb₁, hitem, hbefore,
      afterRefusal_addItem hr₁ (run_bind_pure_eq_error_iff.1 hrefused),
      registry_of_load Registry.Gains.built hbefore, hafter⟩
  · exact growsBy_load hload

namespace Visits

/-! Two facts, of which the second takes an individual for a class. Its first name is granted. -/

def refused : Document :=
  ⟨⟨[], [], [], []⟩, [], [.member "lyon" "Place", .member "paris" "lyon"], [], []⟩

def paris : EntityId := .nth 2

/-- The first fact is there, and the first name of the second. -/
def stopped : KnowledgeBase :=
  { loaded with registry := (loaded.registry.intern "paris" .individual).2 }

def conflict : RegistryError := .kindConflict "lyon" .individual .cls

theorem intern_paris :
    loaded.registry.intern "paris" .individual = (.ok paris, stopped.registry) ∧
      stopped.registry.Built ∧
      stopped.registry.all = loaded.registry.all ++ [⟨paris, .individual, "paris"⟩] := by
  obtain ⟨-, hbuilt, hall⟩ := intern_lyon
  obtain ⟨hbuilt', hrun, hall'⟩ := @Registry.Built.intern_new _ hbuilt "paris" .individual paris
    (by rw [hall]; rfl) (by rw [hall]; decide)
  exact ⟨Prod.ext hrun rfl, hbuilt', hall'⟩

theorem run_load_document : ∃ summary, (load document).run declared = (.ok summary, loaded) := by
  obtain ⟨summary, hrun, -⟩ := run_bind_pure_eq_ok_iff.1 run_load
  exact ⟨summary, hrun⟩

theorem run_addItem_refused : (addItem (.fact (.member "paris" "lyon"))).run loaded =
    (.error (.registry conflict), stopped) := by
  obtain ⟨hparis, hbuilt, hall⟩ := intern_paris
  have hentry : (RegistryM.ofFactEntry (.member "paris" "lyon")).run loaded.registry =
      (.error conflict, stopped.registry) := by
    have hfirst : (RegistryM.intern "paris" .individual).run loaded.registry =
        (.ok paris, stopped.registry) := hparis
    have hsecond : (RegistryM.intern "lyon" .cls).run stopped.registry =
        (.error conflict, stopped.registry) :=
      @Registry.WellFormed.intern_name _ hbuilt.wellFormed ⟨lyon, .individual, "lyon"⟩
        (by rw [hall, intern_lyon.2.2]; decide) .cls
    rw [RegistryM.ofFactEntry, run_bind_of_ok hfirst, run_bind_of_error hsecond]
  rw [addItem, run_bind_of_error (run_onRegistry hentry)]
  rfl

theorem run_load_refused :
    (load refused).run declared = (.error (.registry conflict), stopped) := by
  obtain ⟨summary, hload⟩ := run_load_document
  rw [load, addItems] at hload
  have hitems : refused.items = document.items ++ [.fact (.member "paris" "lyon")] := rfl
  rw [load, addItems, hitems, List.foldlM_append, run_bind_of_ok hload, List.foldlM_cons,
    bind_assoc, run_bind_of_error run_addItem_refused]

end Visits

/-- The document is refused at its second fact: the first one stays, and so does the new name of
    the second, but no fact of it. The document that ends before it is accepted. -/
theorem load_leaves_visits :
    Visits.declared.registry.Reachable ∧
      (load Visits.refused).run Visits.declared =
        (.error (.registry Visits.conflict), Visits.stopped) ∧
      Visits.loaded.AfterRefusal (.fact (.member "paris" "lyon")) (.registry Visits.conflict)
        Visits.stopped ∧
      Visits.stopped.registry.all =
        Visits.loaded.registry.all ++ [⟨Visits.paris, .individual, "paris"⟩] ∧
      ∃ summary, (load (Visits.refused.take 1)).run Visits.declared =
          (.ok summary, Visits.loaded) ∧
        Visits.declared.GrowsBy summary Visits.loaded := by
  have hreachable : Visits.declared.registry.Reachable := .intern "Place" .cls .empty
  have hitems : (Visits.refused.take 1).items = Visits.document.items := rfl
  obtain ⟨summary, hload⟩ := Visits.run_load_document
  have hcut :
      (load (Visits.refused.take 1)).run Visits.declared = (.ok summary, Visits.loaded) := by
    rw [load, hitems]
    exact hload
  have hgrows := load_leaves Visits.declared hreachable (Visits.refused.take 1)
  rw [hcut] at hgrows
  have hstops := load_leaves Visits.declared hreachable Visits.refused
  rw [Visits.run_load_refused] at hstops
  obtain ⟨k, item, summary', kb₁, hitem, hbefore, hrefused, -, hafter⟩ := hstops
  -- the document is accepted up to its second item and has no third
  have hk : k = 1 := by
    have hlt : k < 2 := (List.getElem?_eq_some_iff.1 hitem).1
    have hpos : ¬ k < 1 := fun hk => by cases (hafter 1 hk).symm.trans hcut
    omega
  subst hk
  cases hitem
  cases hcut.symm.trans hbefore
  exact ⟨hreachable, Visits.run_load_refused, hrefused, Visits.intern_paris.2.2, summary, hcut,
    hgrows⟩

/-! ## Without an identifier to spare -/

/-- The knowledge base with the counter of its registry back at the start. -/
def KnowledgeBase.spend (kb : KnowledgeBase) : KnowledgeBase :=
  { kb with registry := { kb.registry with supply := .start } }

theorem run_load_of_items {document : Document} {item : DocumentItem} {kb kb' : KnowledgeBase}
    {e : Error} (hitems : document.items = [item]) (h : (addItem item).run kb = (.error e, kb')) :
    (load document).run kb = (.error e, kb') := by
  rw [load, addItems, hitems, List.foldlM_cons, bind_assoc, run_bind_of_error h]

theorem KnowledgeBase.get?_spend (kb : KnowledgeBase) (id : EntityId) :
    kb.spend.registry.get? id = kb.registry.get? id := rfl

theorem intern_spend {kb : KnowledgeBase} {name : String} (hnew : kb.registry.ids[name]? = none)
    (kind : EntityKind) : (kb.spend.registry.intern name kind).1 = .ok Registry.first :=
  (@Registry.intern_of_start kb.spend.registry rfl name hnew kind).2.2

section Full

variable {kb : KnowledgeBase} (hr : kb.registry.WellFormed) {name : String}
  (hnew : kb.registry.ids[name]? = none)

include hr hnew

/-- A declaration that finds no identifier turns the counter back. -/
theorem run_addItem_of_full (hfull : kb.registry.all.length = 2 ^ 32 - 1) (kind : EntityKind) :
    (addItem (.declaration name kind)).run kb = (.error (.registry .exhausted), kb.spend) := by
  have hintern : (RegistryM.intern name kind).run kb.registry =
      (.error .exhausted, kb.spend.registry) := hr.intern_of_full hfull hnew kind
  rw [addItem, declare, bind_assoc, run_bind_of_error (run_onRegistry hintern)]
  rfl

/-- After that, a fact that is refused puts its new name in the place of the first entity. -/
theorem run_addItem_of_spent {p : Entity} (hp : kb.registry.get? Registry.first = some p) :
    ∃ kb', (addItem (.fact (.member name p.name))).run kb.spend =
        (.error (.registry (.kindConflict p.name .individual .cls)), kb') ∧
      kb'.registry.get? Registry.first = some ⟨Registry.first, .individual, name⟩ := by
  obtain ⟨r, hfirst, hget, hsecond⟩ := hr.intern_first_of_start hp hnew
    (show EntityKind.individual ≠ .cls by decide)
  have hname : (RegistryM.intern name .individual).run kb.spend.registry =
      (.ok Registry.first, r) := hfirst
  have hclass : (RegistryM.intern p.name .cls).run r =
      (.error (.kindConflict p.name .individual .cls), r) := hsecond
  have hentry : (RegistryM.ofFactEntry (.member name p.name)).run kb.spend.registry =
      (.error (.kindConflict p.name .individual .cls), r) := by
    rw [RegistryM.ofFactEntry, run_bind_of_ok hname, run_bind_of_error hclass]
  refine ⟨{ kb.spend with registry := r }, ?_, hget⟩
  rw [addItem, run_bind_of_error (run_onRegistry hentry)]

end Full

namespace Overfull

def holding (r : Registry) : KnowledgeBase := ⟨.standard, r, #[], .empty, [], []⟩

def declaring : Document := ⟨⟨["v"], [], [], []⟩, [], [], [], []⟩

def stating : Document := ⟨⟨[], [], [], []⟩, [], [.member "v" "p"], [], []⟩

end Overfull

/-- Without an identifier to spare, a declaration that is refused leaves another registry than the
    document without it: there the same declaration is refused again, here it is granted. And a fact
    that is then refused has not appended its name but put it in the place of an entity. -/
theorem load_leaves_overfull :
    let kb := Overfull.holding (Registry.Letters.filled (2 ^ 32 - 2))
    let p : Entity := ⟨Registry.first, .objectProperty, "p"⟩
    kb.registry.Reachable ∧ kb.spend.registry.Reachable ∧
      (load Overfull.declaring).run kb = (.error (.registry .exhausted), kb.spend) ∧
      (load (Overfull.declaring.take 0)).run kb = (.ok .zero, kb) ∧
      (kb.registry.intern "v" .cls).1 = .error .exhausted ∧
      (kb.spend.registry.intern "v" .cls).1 = .ok Registry.first ∧
      (load (Overfull.stating.take 0)).run kb.spend = (.ok .zero, kb.spend) ∧
      kb.spend.registry.get? Registry.first = some p ∧
      ∃ kb', (load Overfull.stating).run kb.spend =
          (.error (.registry (.kindConflict "p" .individual .cls)), kb') ∧
        kb'.registry.get? Registry.first = some ⟨Registry.first, .individual, "v"⟩ := by
  have hcount : 2 ^ 32 - 2 < 2 ^ 32 - 1 := by decide
  have hreachable := Registry.Letters.reachable_filled (2 ^ 32 - 2)
  have hr := (Registry.Letters.filled_spec hcount).1
  have hfull : (Registry.Letters.filled (2 ^ 32 - 2)).all.length = 2 ^ 32 - 1 := by
    rw [Registry.Letters.length_filled hcount]
    decide
  have hget := Registry.Letters.get?_first_filled hcount
  have hother := Registry.Letters.isNew_filled hcount "v" List.mem_cons_self (by decide) (by decide)
  have hnew := hr.ids_eq_none_iff.2 fun e he => (hother e he).1
  generalize Registry.Letters.filled (2 ^ 32 - 2) = r at hreachable hr hfull hget hnew ⊢
  intro kb p
  have hkb : kb.registry.WellFormed := hr
  have hnew : kb.registry.ids["v"]? = none := hnew
  have hintern := hr.intern_of_full hfull hnew .cls
  have hspent : kb.spend.registry.Reachable := by
    have hnext := hreachable.intern "v" .cls
    rwa [hintern] at hnext
  obtain ⟨kb', hstating, hgot⟩ := run_addItem_of_spent hkb hnew hget
  have hitem : Overfull.stating.items = [.fact (.member "v" "p")] := rfl
  exact ⟨hreachable, hspent, run_load_of_items rfl (run_addItem_of_full hkb hnew hfull .cls), rfl,
    congrArg Prod.fst hintern, intern_spend hnew .cls, rfl,
    (kb.get?_spend _).trans hget, kb',
    run_load_of_items hitem hstating, hgot⟩

end HornOntology
