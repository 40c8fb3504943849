import HornOntology.Proofs.Writing

set_option autoImplicit false

/-! # Rendered texts read back

Rendering writes names as they are, never in quotes, so a rendered text is read back only if its
names survive the reader: a predicate as `IsPredicateName` says, a constant as `IsConstantName`
does. Then atoms, rules and queries come back (`atom_renderAtom`, `Rule.parse_renderRule`,
`Query.parse_renderQuery`). The variables and the shape of an accepted text need no such condition:
they were read once and are read again. A constant with a comma in its name does not come back. -/

namespace HornOntology

/-! ## Names that survive -/

/-- A name that is looked up as it is written: no hash sign is taken from it, and it is not taken
    for a builtin. -/
structure IsPredicateName (name : String) : Prop extends IsAtomName name where
  no_hash : name.toList.head? ≠ some '#'
  no_builtin : Builtin.nameSpace.toList.isPrefixOf name.toList = false

/-- An argument that is read as the constant with that name. -/
structure IsConstantName (name : String) : Prop extends IsArgument name.toList where
  no_variable : RuleText.readVariable? name.toList = none
  literal_eq : RuleText.literal name.toList = name.toList

/-- The names in the text of an atom survive. -/
structure Registry.Legible (r : Registry) (a : Atom EntityId) : Prop where
  predicate : ∀ id, a.predicate? = some id → IsPredicateName (r.renderEntity id)
  constants : ∀ id, Term.const id ∈ a.terms → IsConstantName (r.renderEntity id)

theorem isAtomName_builtin (op : Builtin) : IsAtomName op.name := by
  cases op <;> exact ⟨by decide, by decide, by decide, by decide, by decide⟩

namespace RuleText

variable {registry : Registry}

/-! ## Terms and atoms -/

theorem dropWhile_hash {text : List Char} (h : text.head? ≠ some '#') :
    text.dropWhile (· = '#') = text := by
  cases text with
  | nil => rfl
  | cons c text => exact List.dropWhile_cons_of_neg (by simpa using h)

section RelationalAtom

variable {m : Type → Type} [Monad m] [MonadExcept Error m] (constant : String → m Constant)
  {name : String} {id : EntityId} (hname : registry.resolve name = .ok id)

include hname

theorem relationalAtom_cls (hkind : registry.kind? id = some .cls) (arg : List Char) :
    relationalAtom registry constant name [arg] = (do
      let t ← term constant arg
      return .member id t) := by
  rw [relationalAtom, hname]
  dsimp only
  rw [hkind]

theorem relationalAtom_property {kind : EntityKind} (hkind : registry.kind? id = some kind)
    (hproperty : kind.isProperty = true) (subject object : List Char) :
    relationalAtom registry constant name [subject, object] = (do
      let s ← term constant subject
      let o ← term constant object
      return .link id s o) := by
  rw [relationalAtom, hname]
  dsimp only
  rw [hkind]
  cases kind with
  | cls => cases hproperty
  | individual => cases hproperty
  | objectProperty => rfl
  | dataProperty => rfl

theorem relationalAtom_arity (hkind : registry.kind? id = some .objectProperty)
    {args : List (List Char)} (hargs : args.length ≠ 2) :
    relationalAtom registry constant name args =
      throw (.text (.arity name .objectProperty 2 args.length)) := by
  rw [relationalAtom, hname]
  dsimp only
  rw [hkind]
  match args, hargs with
  | [], _ => rfl
  | [_], _ => rfl
  | [_, _], hargs => exact absurd rfl hargs
  | _ :: _ :: _ :: _, _ => rfl

end RelationalAtom

theorem isArgument_renderTerm {t : Term EntityId} (ht : t.Proper registry.IsIndividual)
    (hconst : ∀ id, t = .const id → IsConstantName (registry.renderEntity id)) :
    IsArgument (registry.renderTerm t).toList := by
  cases t with
  | var v => exact Variable.Proper.argument ht
  | const id => exact (hconst id rfl).toIsArgument

theorem isArgument_of_mem_terms {a : Atom EntityId}
    (ha : a.Proper registry registry.IsIndividual) (hlegible : registry.Legible a) :
    ∀ arg ∈ a.terms.map registry.renderTerm, IsArgument arg.toList :=
  List.forall_mem_map.2 fun t ht =>
    isArgument_renderTerm (ha.terms t ht) fun id hid => hlegible.constants id (hid ▸ ht)

section

variable (hr : registry.Indexed)

include hr

theorem resolve_renderEntity_of_kind? {id : EntityId} {kind : EntityKind}
    (h : registry.kind? id = some kind) :
    registry.resolve (registry.renderEntity id) = .ok id := by
  obtain ⟨e, he, -⟩ := Option.map_eq_some_iff.1 h
  exact hr.resolve_renderEntity he

theorem term_renderTerm {t : Term EntityId} (ht : t.Proper registry.IsIndividual)
    (hconst : ∀ id, t = .const id → IsConstantName (registry.renderEntity id)) :
    term (checked registry) (registry.renderTerm t).toList = .ok (t.map .known) := by
  cases t with
  | var v =>
    have hread : readVariable? v.display.toList = some v := Variable.Proper.reads ht
    rw [Registry.renderTerm, term, hread]
    rfl
  | const id =>
    have hname := hconst id rfl
    have hkind : registry.kind? id = some .individual := ht
    rw [Registry.renderTerm, term, hname.no_variable, hname.literal_eq, String.ofList_toList,
      checked, resolve_renderEntity_of_kind? hr hkind]
    dsimp only
    rw [hkind]
    rfl

/-- The text of an atom is read as that atom. -/
theorem atom_renderAtom {a : Atom EntityId} (ha : a.Proper registry registry.IsIndividual)
    (hlegible : registry.Legible a) (input : String) :
    atom registry (checked registry) input (registry.renderAtom a).toList = .ok (a.map .known) := by
  have hterm : ∀ t ∈ a.terms,
      term (checked registry) (registry.renderTerm t).toList = .ok (t.map .known) :=
    fun t ht => term_renderTerm hr (ha.terms t ht) fun id hid => hlegible.constants id (hid ▸ ht)
  have hargs := isArgument_of_mem_terms ha hlegible
  -- the name of a class or property is looked up unchanged
  have hpredicate : ∀ id, a.predicate? = some id →
      atom registry (checked registry) input (Registry.application (registry.renderEntity id)
          (a.terms.map registry.renderTerm)).toList =
        relationalAtom registry (checked registry) (registry.renderEntity id)
          ((a.terms.map registry.renderTerm).map String.toList) := by
    intro id hid
    have hname := hlegible.predicate id hid
    rw [atom_application _ registry hname.toIsAtomName hargs, hname.no_builtin,
      dropWhile_hash hname.no_hash, String.ofList_toList]
    rfl
  have hkind := ha.kind
  cases a with
  | member cls t =>
    refine (hpredicate cls rfl).trans ?_
    refine (relationalAtom_cls _ (resolve_renderEntity_of_kind? hr hkind) hkind _).trans ?_
    rw [hterm t List.mem_cons_self]
    rfl
  | link property s o =>
    obtain ⟨kind, hkind, hproperty⟩ := hkind
    refine (hpredicate property rfl).trans ?_
    refine (relationalAtom_property _ (resolve_renderEntity_of_kind? hr hkind) hkind hproperty _
      _).trans ?_
    rw [hterm s List.mem_cons_self, hterm o (List.mem_cons_of_mem _ List.mem_cons_self)]
    rfl
  | builtin op ts =>
    refine (atom_application _ registry (isAtomName_builtin op) hargs input).trans ?_
    have hspace : Builtin.nameSpace.toList.isPrefixOf op.name.toList = true := by
      cases op <;> decide
    have hop : Builtin.ofName? op.name = some op := by
      cases op <;> decide
    have hmap : ((ts.map registry.renderTerm).map String.toList).mapM (term (checked registry)) =
        .ok (ts.map (Term.map .known)) := by
      rw [mapM_eq_ok_iff, List.map_map, List.forall₂_map_left_iff, List.forall₂_map_right_iff,
        List.forall₂_same]
      exact hterm
    rw [if_pos hspace, builtinAtom, hop]
    dsimp only
    rw [show (Atom.builtin op ts).terms = ts from rfl, hmap]
    rfl

end

/-- The text of an atom is an application of a name that survives. -/
theorem isAtomText_renderAtom {a : Atom EntityId}
    (ha : a.Proper registry registry.IsIndividual) (hlegible : registry.Legible a) :
    IsAtomText (registry.renderAtom a) := by
  have hargs := isArgument_of_mem_terms ha hlegible
  cases a with
  | member cls t => exact .application (hlegible.predicate cls rfl).toIsAtomName hargs
  | link property s o => exact .application (hlegible.predicate property rfl).toIsAtomName hargs
  | builtin op ts => exact .application (isAtomName_builtin op) hargs

/-- The texts of atoms are read as those atoms. -/
theorem mapM_atom_renderAtom (hr : registry.Indexed) {atoms : List (Atom EntityId)}
    (hatoms : ∀ a ∈ atoms, a.Proper registry registry.IsIndividual ∧ registry.Legible a)
    (input : String) :
    (atoms.map registry.renderAtom).mapM
        (fun text => atom registry (checked registry) input text.toList) =
      .ok (atoms.map (Atom.map .known)) := by
  rw [mapM_eq_ok_iff, List.forall₂_map_left_iff, List.forall₂_map_right_iff, List.forall₂_same]
  exact fun a ha => atom_renderAtom hr (hatoms a ha).1 (hatoms a ha).2 input

/-! ## Rules and queries -/

theorem readRule_renderRule (hr : registry.Indexed) {rule : Rule EntityId}
    (hbody : rule.body ≠ []) (hhead : rule.head ≠ [])
    (hatoms : ∀ a ∈ rule.body ++ rule.head,
      a.Proper registry registry.IsIndividual ∧ registry.Legible a) (name : String) :
    readRule registry (checked registry) name (registry.renderRule rule) =
      (Rule.ofParts name (rule.map .known).body (rule.map .known).head).mapError .rule := by
  obtain ⟨hatomsBody, hatomsHead⟩ := List.forall_mem_append.1 hatoms
  have htext : ∀ a ∈ rule.body ++ rule.head, IsAtomText (registry.renderAtom a) :=
    fun a ha => isAtomText_renderAtom (hatoms a ha).1 (hatoms a ha).2
  obtain ⟨htextBody, htextHead⟩ := List.forall_mem_append.1 htext
  rw [readRule_append _ registry name (List.forall_mem_map.2 htextBody) (by simpa using hbody)
    (List.forall_mem_map.2 htextHead) (by simpa using hhead)
    (show registry.renderRule rule = _ from rfl),
    mapM_atom_renderAtom hr hatomsBody, mapM_atom_renderAtom hr hatomsHead]
  exact ofExcept_self _

theorem isAtomName_select (distinct : Bool) :
    IsAtomName (if distinct then "sqwrl:selectDistinct" else "sqwrl:select") := by
  cases distinct <;> exact ⟨by decide, by decide, by decide, by decide, by decide⟩

theorem isArgument_display {projection : List Variable} (hproj : ∀ v ∈ projection, v.Proper) :
    ∀ arg ∈ projection.map Variable.display, IsArgument arg.toList :=
  List.forall_mem_map.2 fun v hv => (hproj v hv).argument

/-- The head of a query is read as its selection. -/
theorem selection_application (distinct : Bool) {projection : List Variable}
    (hproj : ∀ v ∈ projection, v.Proper) (input : String) :
    selection input (Registry.application
        (if distinct then "sqwrl:selectDistinct" else "sqwrl:select")
        (projection.map Variable.display)).toList = .ok (distinct, projection) := by
  have hname := isAtomName_select distinct
  have hselected : ((projection.map Variable.display).map String.toList).mapM (selected input) =
      .ok projection := by
    rw [mapM_eq_ok_iff, List.map_map, List.forall₂_map_left_iff, List.forall₂_same]
    intro v hv
    rw [Function.comp_apply, selected, (hproj v hv).reads]
  have hdistinct : isDistinct input
      (if distinct then "sqwrl:selectDistinct" else "sqwrl:select").toList = .ok distinct := by
    rw [isDistinct, String.ofList_toList]
    cases distinct <;> rfl
  rw [selection, trimmed_toList_application hname,
    splitAtom_application hname (isArgument_display hproj)]
  simp only [bind, Except.bind, hdistinct, hselected]
  rfl

theorem readQuery_renderQuery (hr : registry.Indexed) {query : Query EntityId}
    (hbody : query.body ≠ [])
    (hatoms : ∀ a ∈ query.body, a.Proper registry registry.IsIndividual ∧ registry.Legible a)
    (hproj : ∀ v ∈ query.projection, v.Proper) (name : String) :
    readQuery registry (checked registry) name (registry.renderQuery query) =
      (Query.ofParts name (query.map .known).body query.projection query.distinct).mapError
        .rule := by
  have htext : ∀ a ∈ query.body, IsAtomText (registry.renderAtom a) :=
    fun a ha => isAtomText_renderAtom (hatoms a ha).1 (hatoms a ha).2
  rw [readQuery_append _ registry name (List.forall_mem_map.2 htext) (by simpa using hbody)
    (.application (isAtomName_select query.distinct) (isArgument_display hproj))
    (show registry.renderQuery query = _ from rfl),
    mapM_atom_renderAtom hr hatoms, selection_application query.distinct hproj]
  exact ofExcept_self _

end RuleText

/-- A valid rule of proper and legible atoms is read back from its text under any name, and nothing
    is registered. -/
theorem Rule.parse_renderRule_as {registry : Registry} (hr : registry.Indexed)
    {rule : Rule EntityId} (hvalid : rule.Valid) (hbody : rule.body ≠ []) (hhead : rule.head ≠ [])
    (hatoms : ∀ a ∈ rule.body ++ rule.head,
      a.Proper registry registry.IsIndividual ∧ registry.Legible a) (name : String) :
    Rule.parse registry name (registry.renderRule rule) = (.ok { rule with name }, registry) := by
  have hknown : (({ rule with name } : Rule EntityId).map Constant.known).Valid :=
    (Rule.rel_map _ _).valid biUnique_known (hvalid.rename name)
  have hread : RuleText.readRule registry (RuleText.checked registry) name
      (registry.renderRule rule) =
      .ok (({ rule with name } : Rule EntityId).map .known) := by
    rw [RuleText.readRule_renderRule hr hbody hhead hatoms]
    exact congrArg _ hknown.ofParts
  refine (commit_eq_ok_iff (RuleText.follows_readRule hr _ _)).2
    ⟨_, hread, by simp [Rule.constants_map], ?_⟩
  rw [Rule.mapConstM_map_known]
  rfl

theorem Rule.parse_renderRule {registry : Registry} (hr : registry.WellFormed)
    {rule : Rule EntityId} (hvalid : rule.Valid) (hbody : rule.body ≠ []) (hhead : rule.head ≠ [])
    (hatoms : ∀ a ∈ rule.body ++ rule.head,
      a.Proper registry registry.IsIndividual ∧ registry.Legible a) :
    Rule.parse registry rule.name (registry.renderRule rule) = (.ok rule, registry) :=
  Rule.parse_renderRule_as hr.indexed hvalid hbody hhead hatoms rule.name

/-- A valid query of proper and legible atoms is read back from its text under any name, and
    nothing is registered. -/
theorem Query.parse_renderQuery_as {registry : Registry} (hr : registry.Indexed)
    {query : Query EntityId} (hvalid : query.Valid) (hbody : query.body ≠ [])
    (hatoms : ∀ a ∈ query.body, a.Proper registry registry.IsIndividual ∧ registry.Legible a)
    (hproj : ∀ v ∈ query.projection, v.Proper) (name : String) :
    Query.parse registry name (registry.renderQuery query) =
      (.ok { query with name }, registry) := by
  have hknown : (({ query with name } : Query EntityId).map Constant.known).Valid :=
    (Query.rel_map _ _).valid (hvalid.rename name)
  have hread : RuleText.readQuery registry (RuleText.checked registry) name
      (registry.renderQuery query) =
      .ok (({ query with name } : Query EntityId).map .known) := by
    rw [RuleText.readQuery_renderQuery hr hbody hatoms hproj]
    exact congrArg _ hknown
  refine (commit_eq_ok_iff (RuleText.follows_readQuery hr _ _)).2
    ⟨_, hread, by simp [Query.constants_map], ?_⟩
  rw [Query.mapConstM_map_known]
  rfl

theorem Query.parse_renderQuery {registry : Registry} (hr : registry.WellFormed)
    {query : Query EntityId} (hvalid : query.Valid) (hbody : query.body ≠ [])
    (hatoms : ∀ a ∈ query.body, a.Proper registry registry.IsIndividual ∧ registry.Legible a)
    (hproj : ∀ v ∈ query.projection, v.Proper) :
    Query.parse registry query.name (registry.renderQuery query) = (.ok query, registry) :=
  Query.parse_renderQuery_as hr.indexed hvalid hbody hatoms hproj query.name

/-! ## A class, a property and an individual -/

namespace Places

def place : EntityId := .nth 0

def locatedIn : EntityId := .nth 1

def city : EntityId := .nth 2

/-- A class and a property. -/
def registry : Registry :=
  ((Registry.empty.intern "Place" .cls).2.intern "locatedIn" .objectProperty).2

/-- The class, the property and an individual. -/
def registryWith (name : String) : Registry := (registry.intern name .individual).2

def rule : Rule EntityId :=
  ⟨"r", [.link locatedIn (.var ⟨"x"⟩) (.const city)], [.member place (.var ⟨"x"⟩)]⟩

def query : Query EntityId :=
  ⟨"q", [.link locatedIn (.var ⟨"x"⟩) (.const city)], [⟨"x"⟩], false⟩

theorem built_registry : registry.Built ∧
    registry.all = [⟨place, .cls, "Place"⟩, ⟨locatedIn, .objectProperty, "locatedIn"⟩] := by
  obtain ⟨hbuilt, -, hall⟩ := @Registry.Built.intern_new _ .empty "Place" .cls place rfl
    (by simp [Registry.empty, Registry.all])
  obtain ⟨hbuilt', -, hall'⟩ := @Registry.Built.intern_new _ hbuilt "locatedIn" .objectProperty
    locatedIn (by rw [hall]; rfl) (by rw [hall]; decide)
  refine ⟨hbuilt', ?_⟩
  rw [registry, hall', hall]
  rfl

theorem one_le_unused_registry : 1 ≤ registry.unused := by
  rw [Registry.unused, built_registry.2]
  decide

theorem get?_of_all {r : Registry} {entities : List Entity} (h : r.all = entities)
    (id : EntityId) : r.get? id = entities[id.toNat - 1]? := by
  rw [Registry.get?_eq_getElem?, h]

theorem isArgument_x : IsArgument "?x".toList := by decide

theorem isPredicateName_place : IsPredicateName "Place" :=
  ⟨⟨by decide, by decide, by decide, by decide, by decide⟩, by decide, by decide⟩

theorem isPredicateName_locatedIn : IsPredicateName "locatedIn" :=
  ⟨⟨by decide, by decide, by decide, by decide, by decide⟩, by decide, by decide⟩

section New

variable {name : String} (hnew : ∀ e ∈ registry.all, e.name ≠ name ∧ e.localName ≠ name)

include hnew

theorem built_registryWith : (registryWith name).Built ∧
    registry.intern name .individual = (.ok city, registryWith name) ∧
    (registryWith name).all = [⟨place, .cls, "Place"⟩,
      ⟨locatedIn, .objectProperty, "locatedIn"⟩, ⟨city, .individual, name⟩] := by
  obtain ⟨hbuilt, hall⟩ := built_registry
  obtain ⟨hbuilt', hrun, hall'⟩ := @Registry.Built.intern_new _ hbuilt name .individual city
    (by rw [hall]; rfl) fun e he => (hnew e he).1
  refine ⟨hbuilt', Prod.ext hrun rfl, ?_⟩
  rw [registryWith, hall', hall]
  rfl

variable {arg : String} (harg : IsArgument arg.toList)
  (hvar : RuleText.readVariable? arg.toList = none)
  (hliteral : RuleText.literal arg.toList = name.toList)

include harg hvar hliteral

theorem atom_locatedIn (input : String) :
    IsAtomText (Registry.application "locatedIn" ["?x", arg]) ∧
      RuleText.atom registry (RuleText.checked registry) input
          (Registry.application "locatedIn" ["?x", arg]).toList =
        .ok (.link locatedIn (.var ⟨"x"⟩) (.const (.fresh name))) := by
  obtain ⟨hbuilt, hall⟩ := built_registry
  have hr := hbuilt.wellFormed
  have hget := get?_of_all hall locatedIn
  have hargs : ∀ a ∈ ["?x", arg], IsArgument a.toList := by simpa using ⟨isArgument_x, harg⟩
  have hterm : RuleText.term (RuleText.checked registry) arg.toList =
      .ok (.const (.fresh name)) := by
    rw [RuleText.term, hvar, hliteral, String.ofList_toList, RuleText.checked,
      hr.resolve_eq_notFound hnew]
    rfl
  refine ⟨.application isPredicateName_locatedIn.toIsAtomName hargs, ?_⟩
  rw [RuleText.atom_application _ registry isPredicateName_locatedIn.toIsAtomName hargs,
    if_neg (by decide)]
  refine (RuleText.relationalAtom_property _ (hr.resolve_name hget)
    (by rw [Registry.kind?, hget]; rfl) rfl _ _).trans ?_
  rw [hterm]
  rfl

omit harg hvar hliteral in
theorem run_locatedIn :
    (Atom.mapConstM Constant.intern
        (.link locatedIn (.var ⟨"x"⟩) (.const (.fresh name)))).run registry =
      (.ok (.link locatedIn (.var ⟨"x"⟩) (.const city)), registryWith name) := by
  have hfresh : (Constant.intern (.fresh name)).run registry = (.ok city, registryWith name) :=
    (built_registryWith hnew).2.1
  simp only [Atom.mapConstM, Term.mapConstM, pure_bind, bind_assoc]
  rw [run_bind_of_ok hfresh]
  rfl

theorem parse_rule {text : String} (htext : text =
      " ^ ".intercalate [Registry.application "locatedIn" ["?x", arg]] ++ " -> " ++
      " ^ ".intercalate [Registry.application "Place" ["?x"]]) :
    Rule.parse registry "r" text = (.ok rule, registryWith name) := by
  obtain ⟨hbuilt, hall⟩ := built_registry
  have hget := get?_of_all hall place
  obtain ⟨hatomText, hbody⟩ := atom_locatedIn hnew harg hvar hliteral text
  have hargs : ∀ a ∈ ["?x"], IsArgument a.toList := by simpa using isArgument_x
  have hhead : RuleText.atom registry (RuleText.checked registry) text
      (Registry.application "Place" ["?x"]).toList = .ok (.member place (.var ⟨"x"⟩)) := by
    rw [RuleText.atom_application _ registry isPredicateName_place.toIsAtomName hargs,
      if_neg (by decide)]
    exact RuleText.relationalAtom_cls _ (hbuilt.wellFormed.resolve_name hget)
      (by rw [Registry.kind?, hget]; rfl) _
  have hread : RuleText.readRule registry (RuleText.checked registry) "r" text =
      .ok ⟨"r", [.link locatedIn (.var ⟨"x"⟩) (.const (.fresh name))],
        [.member place (.var ⟨"x"⟩)]⟩ := by
    rw [RuleText.readRule_append _ registry "r" (by simpa using hatomText) (List.cons_ne_nil _ _)
      (by simpa using .application isPredicateName_place.toIsAtomName hargs)
      (List.cons_ne_nil _ _) htext]
    simp only [List.mapM_cons, List.mapM_nil, hbody, hhead]
    rfl
  refine (commit_eq_ok_iff (RuleText.follows_readRule hbuilt.wellFormed.indexed _ _)).2
    ⟨_, hread, one_le_unused_registry, ?_⟩
  simp only [Rule.mapConstM, List.mapM_cons, List.mapM_nil, bind_assoc]
  rw [run_bind_of_ok (run_locatedIn hnew)]
  rfl

theorem parse_query {text : String} (htext : text =
      " ^ ".intercalate [Registry.application "locatedIn" ["?x", arg]] ++ " -> " ++
      Registry.application "sqwrl:select" ["?x"]) :
    Query.parse registry "q" text = (.ok query, registryWith name) := by
  obtain ⟨hatomText, hbody⟩ := atom_locatedIn hnew harg hvar hliteral text
  have hheadText : IsAtomText (Registry.application "sqwrl:select" ["?x"]) :=
    .application (RuleText.isAtomName_select false) (by simpa using isArgument_x)
  have hselection : RuleText.selection text (Registry.application "sqwrl:select" ["?x"]).toList =
      .ok (false, [⟨"x"⟩]) :=
    @RuleText.selection_application false [⟨"x"⟩]
      (List.forall_mem_singleton.2 ⟨rfl, isArgument_x⟩) text
  have hread : RuleText.readQuery registry (RuleText.checked registry) "q" text =
      .ok ⟨"q", [.link locatedIn (.var ⟨"x"⟩) (.const (.fresh name))], [⟨"x"⟩], false⟩ := by
    rw [RuleText.readQuery_append _ registry "q" (by simpa using hatomText) (List.cons_ne_nil _ _)
      hheadText htext]
    simp only [List.mapM_cons, List.mapM_nil, hbody, hselection]
    rfl
  have hindexed := built_registry.1.wellFormed.indexed
  refine (commit_eq_ok_iff (RuleText.follows_readQuery hindexed _ _)).2
    ⟨_, hread, one_le_unused_registry, ?_⟩
  simp only [Query.mapConstM, List.mapM_cons, List.mapM_nil, bind_assoc]
  rw [run_bind_of_ok (run_locatedIn hnew)]
  rfl

omit harg hvar hliteral in
theorem renderEntity_registryWith (hlocal : localName name = name) :
    (registryWith name).renderEntity place = "Place" ∧
      (registryWith name).renderEntity locatedIn = "locatedIn" ∧
      (registryWith name).renderEntity city = name := by
  have hget := get?_of_all (built_registryWith hnew).2.2
  exact ⟨Registry.renderEntity_eq_name (hget place) (by decide),
    Registry.renderEntity_eq_name (hget locatedIn) (by decide),
    Registry.renderEntity_eq_name (hget city) hlocal⟩

omit harg hvar hliteral in
theorem legible_registryWith (hlocal : localName name = name) (hname : IsConstantName name) :
    (registryWith name).Legible (.link locatedIn (.var ⟨"x"⟩) (.const city)) ∧
      (registryWith name).Legible (.member place (.var ⟨"x"⟩)) := by
  obtain ⟨hplace, hlocatedIn, hcity⟩ := renderEntity_registryWith hnew hlocal
  refine ⟨⟨?_, ?_⟩, ⟨?_, ?_⟩⟩
  · rintro id ⟨⟩
    rw [hlocatedIn]
    exact isPredicateName_locatedIn
  · intro id hid
    obtain rfl : id = city := by simpa [Atom.terms] using hid
    rwa [hcity]
  · rintro id ⟨⟩
    rw [hplace]
    exact isPredicateName_place
  · intro id hid
    simp [Atom.terms] at hid

end New

end Places

/-! ## Reading back what was accepted -/

/-- An accepted text whose predicates and constants are legible when they are rendered is read
    back from its rendering: the rule or query is the same, and the registry does not change. -/
theorem parse_render_of_legible {registry : Registry} (hbuilt : registry.Built)
    (name text : String) :
    (∀ rule registry', Rule.parse registry name text = (.ok rule, registry') →
      (∀ a ∈ rule.body ++ rule.head, registry'.Legible a) →
      Rule.parse registry' name (registry'.renderRule rule) = (.ok rule, registry')) ∧
    ∀ query registry', Query.parse registry name text = (.ok query, registry') →
      (∀ a ∈ query.body, registry'.Legible a) →
      Query.parse registry' name (registry'.renderQuery query) = (.ok query, registry') := by
  constructor
  · intro rule registry' hparse hlegible
    obtain ⟨hr', rfl, hvalid, hbody, hhead, hproper⟩ := Rule.of_parse hbuilt.wellFormed hparse
    exact Rule.parse_renderRule hr' hvalid hbody hhead fun a ha => ⟨hproper a ha, hlegible a ha⟩
  · intro query registry' hparse hlegible
    obtain ⟨hr', rfl, hvalid, hbody, hproper, hproj⟩ := Query.of_parse hbuilt.wellFormed hparse
    exact Query.parse_renderQuery hr' hvalid hbody
      (fun a ha => ⟨hproper a ha, hlegible a ha⟩) hproj

/-- Quotes and the type of a literal are lost in rendering, and are not missed. -/
theorem parse_render_of_legible_typed :
    Rule.parse Places.registry "r" "locatedIn(?x, \"Lyon\"^^xsd:string) -> Place(?x)" =
        (.ok Places.rule, Places.registryWith "Lyon") ∧
      Rule.parse (Places.registryWith "Lyon") "r"
          ((Places.registryWith "Lyon").renderRule Places.rule) =
        (.ok Places.rule, Places.registryWith "Lyon") ∧
      Query.parse Places.registry "q"
          "locatedIn(?x, \"Lyon\"^^xsd:string) -> sqwrl:select(?x)" =
        (.ok Places.query, Places.registryWith "Lyon") ∧
      Query.parse (Places.registryWith "Lyon") "q"
          ((Places.registryWith "Lyon").renderQuery Places.query) =
        (.ok Places.query, Places.registryWith "Lyon") := by
  have hnew : ∀ e ∈ Places.registry.all, e.name ≠ "Lyon" ∧ e.localName ≠ "Lyon" := by
    rw [Places.built_registry.2]
    decide
  have harg : IsArgument "\"Lyon\"^^xsd:string".toList := by decide
  have hrule := @Places.parse_rule "Lyon" hnew "\"Lyon\"^^xsd:string" harg rfl (by decide)
    "locatedIn(?x, \"Lyon\"^^xsd:string) -> Place(?x)" rfl
  have hquery := @Places.parse_query "Lyon" hnew "\"Lyon\"^^xsd:string" harg rfl (by decide)
    "locatedIn(?x, \"Lyon\"^^xsd:string) -> sqwrl:select(?x)" rfl
  obtain ⟨hlink, hmember⟩ := Places.legible_registryWith hnew (by decide)
    ⟨by decide, rfl, by decide⟩
  have hbuilt := Places.built_registry.1
  refine ⟨hrule, (parse_render_of_legible hbuilt "r" _).1 Places.rule _ hrule ?_, hquery,
    (parse_render_of_legible hbuilt "q" _).2 Places.query _ hquery ?_⟩
  · exact List.forall_mem_cons.2 ⟨hlink, List.forall_mem_singleton.2 hmember⟩
  · exact List.forall_mem_singleton.2 hlink

/-- A comma in a name becomes a comma between arguments: the rendering of an accepted rule is
    refused. -/
theorem parse_render_comma :
    Places.registry.Built ∧
      Rule.parse Places.registry "r" "locatedIn(?x, \"Lyon, France\") -> Place(?x)" =
        (.ok Places.rule, Places.registryWith "Lyon, France") ∧
      (Places.registryWith "Lyon, France").renderRule Places.rule =
        "locatedIn(?x, Lyon, France) -> Place(?x)" ∧
      (Rule.parse (Places.registryWith "Lyon, France") "r"
          "locatedIn(?x, Lyon, France) -> Place(?x)").1 =
        .error (.text (.arity "locatedIn" .objectProperty 2 3)) := by
  have hnew :
      ∀ e ∈ Places.registry.all, e.name ≠ "Lyon, France" ∧ e.localName ≠ "Lyon, France" := by
    rw [Places.built_registry.2]
    decide
  refine ⟨Places.built_registry.1, ?_, ?_, ?_⟩
  · exact @Places.parse_rule "Lyon, France" hnew "\"Lyon, France\""
      (by decide) rfl (by decide) _ rfl
  · obtain ⟨hplace, hlocatedIn, hcity⟩ := Places.renderEntity_registryWith hnew (by decide)
    simp only [Registry.renderRule, Registry.renderConjunction, Places.rule, List.map_cons,
      List.map_nil, Registry.renderAtom, Atom.terms, Registry.renderTerm, hplace, hlocatedIn,
      hcity]
    rfl
  · obtain ⟨hbuilt, -, hall⟩ := Places.built_registryWith hnew
    have hget := Places.get?_of_all hall Places.locatedIn
    have hargs : ∀ a ∈ ["?x", "Lyon", "France"], IsArgument a.toList := by
      simp only [List.forall_mem_cons]
      exact ⟨Places.isArgument_x, by decide, by decide, by simp⟩
    have hatom : RuleText.atom (Places.registryWith "Lyon, France")
        (RuleText.constant (Places.registryWith "Lyon, France"))
        "locatedIn(?x, Lyon, France) -> Place(?x)"
        (Registry.application "locatedIn" ["?x", "Lyon", "France"]).toList =
          throw (.text (.arity "locatedIn" .objectProperty 2 3)) := by
      rw [RuleText.atom_application _ _ Places.isPredicateName_locatedIn.toIsAtomName hargs,
        if_neg (by decide)]
      exact RuleText.relationalAtom_arity _ (hbuilt.wellFormed.resolve_name hget)
        (by rw [Registry.kind?, hget]; rfl) (by decide)
    have hread := RuleText.readRule_append
      (RuleText.constant (Places.registryWith "Lyon, France"))
      (Places.registryWith "Lyon, France") "r"
      (List.forall_mem_singleton.2
        (.application Places.isPredicateName_locatedIn.toIsAtomName hargs))
      (List.cons_ne_nil _ _)
      (List.forall_mem_singleton.2 (.application Places.isPredicateName_place.toIsAtomName
        (List.forall_mem_singleton.2 Places.isArgument_x)))
      (List.cons_ne_nil _ _)
      (show "locatedIn(?x, Lyon, France) -> Place(?x)" = _ from rfl)
    rw [Rule.parse, hread]
    simp only [List.mapM_cons, List.mapM_nil, hatom]
    rfl

end HornOntology
