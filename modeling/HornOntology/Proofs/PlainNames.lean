import HornOntology.Proofs.RoundTrip

set_option autoImplicit false

/-! # Plain names

A name is plain if no character of it means anything to the reader of rule texts. Both names of an
entity are plain then, the local one as the end of the qualified one, so whichever of them is
rendered survives the reader. If all entities and variables have plain names, and no predicate is
named like a builtin, every rule and query is read back from its text, and it does not matter how
many entities share a local name. -/

namespace HornOntology

/-! ## Texts without marks -/

namespace Text

theorem trimmed_of_forall {text : List Char} (h : ∀ c ∈ text, isBlank c = false) : Trimmed text :=
  trimmed_of_ends (fun c hc => h c (List.mem_of_mem_head? hc))
    (fun c hc => h c (List.mem_of_mem_getLast? hc))

/-- A text that opens and closes nothing is cut only where the separator occurs in it. -/
theorem uncut_of_not_infix {sep : Separator} {text : List Char}
    (hmark : ∀ c ∈ text, isMark c = false) (h : ¬sep.toList <:+: text) : Uncut sep text := by
  induction text with
  | nil => rfl
  | cons c text ih =>
    have hstart : sep.startsAt c text = false := by
      by_contra hstart
      rw [Bool.not_eq_false, Separator.startsAt, Bool.and_eq_true, decide_eq_true_eq,
        List.isPrefixOf_iff_prefix] at hstart
      refine h (List.IsPrefix.isInfix ?_)
      rw [Separator.toList, hstart.1]
      exact List.cons_prefix_cons.2 ⟨rfl, hstart.2⟩
    have hrest : Uncut sep text := by
      refine ih (fun d hd => hmark d (List.mem_cons_of_mem c hd)) fun hinfix => h ?_
      exact hinfix.trans (List.suffix_cons c text).isInfix
    rw [Uncut, walk, Nesting.step_of_not_mark .top (hmark c List.mem_cons_self), hstart,
      if_neg (by simp)]
    exact hrest

theorem uncut_comma {text : List Char} (hmark : ∀ c ∈ text, isMark c = false)
    (hcomma : ',' ∉ text) : Uncut .comma text :=
  uncut_of_not_infix hmark fun h => hcomma (h.subset List.mem_cons_self)

end Text

theorem isArgument_of_forall {text : List Char} (hne : text ≠ [])
    (hblank : ∀ c ∈ text, Text.isBlank c = false) (hmark : ∀ c ∈ text, Text.isMark c = false)
    (hcomma : ',' ∉ text) : IsArgument text := by
  have hinside : Text.Nesting.top.deeper ≠ .top := by decide
  exact ⟨hne, Text.trimmed_of_forall hblank, Text.uncut_comma hmark hcomma,
    Text.walk_of_not_mark hinside hmark, Text.walk_of_not_mark hinside hmark⟩

theorem RuleText.untyped_eq_self {text : List Char} (h : '^' ∉ text) : untyped text = text := by
  induction text with
  | nil => rfl
  | cons c text ih =>
    rw [List.mem_cons, not_or] at h
    rw [untyped, if_neg (fun hc => h.1 hc.1.symm), ih h.2]

/-! ## Plain names -/

/-- A name whose characters all stand for themselves in a rule text. -/
structure IsPlainName (name : String) : Prop where
  ne_nil : name.toList ≠ []
  no_blank : ∀ c ∈ name.toList, Text.isBlank c = false
  no_punctuation : ∀ c ∈ ['(', ')', ',', '"', '^', '?'], c ∉ name.toList
  no_arrow : ¬['-', '>'] <:+: name.toList
  no_hash : name.toList.head? ≠ some '#'

theorem isPlainName_iff (name : String) :
    IsPlainName name ↔ name.toList ≠ [] ∧ name.toList.all (fun c => !Text.isBlank c) = true ∧
      ['(', ')', ',', '"', '^', '?'].all (fun c => !name.toList.contains c) = true ∧
      ¬['-', '>'] <:+: name.toList ∧ name.toList.head? ≠ some '#' := by
  have hblank : name.toList.all (fun c => !Text.isBlank c) = true ↔
      ∀ c ∈ name.toList, Text.isBlank c = false := by
    simp
  have hpunctuation : ['(', ')', ',', '"', '^', '?'].all (fun c => !name.toList.contains c) = true ↔
      ∀ c ∈ ['(', ')', ',', '"', '^', '?'], c ∉ name.toList := by
    simp
  rw [hblank, hpunctuation]
  exact ⟨fun h => ⟨h.1, h.2, h.3, h.4, h.5⟩, fun h => ⟨h.1, h.2.1, h.2.2.1, h.2.2.2.1, h.2.2.2.2⟩⟩

instance (name : String) : Decidable (IsPlainName name) :=
  decidable_of_iff _ (isPlainName_iff name).symm

/-- The local name is the end of a name, and has no hash sign in it unless it is the whole name. -/
theorem localName_cases (name : String) :
    localName name = name ∨
      (localName name).toList ≠ [] ∧ (localName name).toList <:+ name.toList ∧
        '#' ∉ (localName name).toList := by
  unfold localName
  dsimp only
  split
  · exact Or.inl rfl
  · next hne =>
    refine Or.inr ⟨?_, ?_, ?_⟩
    · simpa using hne
    · rw [String.toList_ofList, ← List.reverse_prefix, List.reverse_reverse]
      exact List.takeWhile_prefix _
    · intro hhash
      rw [String.toList_ofList, List.mem_reverse] at hhash
      have hend := List.mem_takeWhile_imp hhash
      simp [isNamespaceEnd] at hend

namespace IsPlainName

variable {name : String} (h : IsPlainName name)

include h

theorem localName : IsPlainName (localName name) := by
  rcases localName_cases name with heq | ⟨hne, hsuffix, hhash⟩
  · rwa [heq]
  · refine ⟨hne, ?_, ?_, ?_, ?_⟩
    · exact fun c hc => h.no_blank c (hsuffix.subset hc)
    · exact fun c hc hmem => h.no_punctuation c hc (hsuffix.subset hmem)
    · exact fun harrow => h.no_arrow (harrow.trans hsuffix.isInfix)
    · exact fun hhead => hhash (List.mem_of_mem_head? hhead)

theorem no_mark : ∀ c ∈ name.toList, Text.isMark c = false := by
  intro c hc
  refine Bool.eq_false_iff.2 fun hmark => h.no_punctuation c ?_ hc
  simp only [Text.isMark, Bool.or_eq_true, beq_iff_eq] at hmark
  rcases hmark with (rfl | rfl) | rfl <;> decide

theorem isArgument : IsArgument name.toList :=
  isArgument_of_forall h.ne_nil h.no_blank h.no_mark (h.no_punctuation _ (by decide))

theorem isAtomName : IsAtomName name where
  ne_nil := h.ne_nil
  trimmed := Text.trimmed_of_forall h.no_blank
  no_open := h.no_punctuation _ (by decide)
  uncut_arrow := Text.uncut_of_not_infix h.no_mark h.no_arrow
  uncut_caret := Text.uncut_of_not_infix h.no_mark fun hcaret =>
    h.no_punctuation '^' (by decide) (hcaret.subset List.mem_cons_self)

theorem isPredicateName (hbuiltin : ¬Builtin.nameSpace.toList <+: name.toList) :
    IsPredicateName name where
  toIsAtomName := h.isAtomName
  no_hash := h.no_hash
  no_builtin := by
    rwa [← Bool.not_eq_true, List.isPrefixOf_iff_prefix]

theorem isConstantName : IsConstantName name where
  toIsArgument := h.isArgument
  no_variable := by
    unfold RuleText.readVariable?
    split
    · next heq => exact absurd (heq ▸ List.mem_cons_self) (h.no_punctuation '?' (by decide))
    · rfl
  literal_eq := by
    have huntyped : RuleText.untyped name.toList = name.toList :=
      RuleText.untyped_eq_self (h.no_punctuation '^' (by decide))
    unfold RuleText.literal
    split
    · next heq => exact absurd (heq ▸ List.mem_cons_self) (h.no_punctuation '"' (by decide))
    · rw [huntyped, RuleText.dropWhile_hash h.no_hash]

end IsPlainName

/-- A variable with a plain name is read back. -/
theorem Variable.proper_of_isPlainName {v : Variable} (h : IsPlainName v.name) : v.Proper := by
  have hdisplay : v.display.toList = '?' :: v.name.toList := by simp [display]
  constructor
  · obtain ⟨c, rest, hcons⟩ := List.exists_cons_of_ne_nil h.ne_nil
    rw [hdisplay, hcons, RuleText.readVariable?, ← hcons, String.ofList_toList]
  · rw [hdisplay]
    refine isArgument_of_forall (List.cons_ne_nil _ _) ?_ ?_ ?_
    · exact List.forall_mem_cons.2 ⟨by decide, h.no_blank⟩
    · exact List.forall_mem_cons.2 ⟨by decide, h.no_mark⟩
    · simpa using h.no_punctuation ',' (by decide)

/-! ## Registries of plain names -/

/-- All names are plain, and those of predicates are not names of builtins. -/
structure Registry.IsPlain (r : Registry) : Prop where
  name : ∀ e ∈ r.all, IsPlainName e.name
  no_builtin : ∀ e ∈ r.all, e.kind ≠ .individual →
    ¬Builtin.nameSpace.toList <+: e.name.toList ∧ ¬Builtin.nameSpace.toList <+: e.localName.toList

/-- An atom with a predicate of the right kind, individuals as constants and variables with plain
    names. -/
structure Atom.IsPlain (registry : Registry) (a : Atom EntityId) : Prop extends
    a.Registered registry where
  var_name : ∀ v ∈ a.vars, IsPlainName v.name

theorem Registry.renderEntity_cases {r : Registry} {id : EntityId} {e : Entity}
    (he : r.get? id = some e) : r.renderEntity id = e.localName ∨ r.renderEntity id = e.name := by
  unfold renderEntity
  simp only [name_eq he]
  split
  · split
    · exact Or.inl rfl
    · exact Or.inr rfl
  · exact Or.inr rfl

namespace Registry.IsPlain

variable {r : Registry} (h : r.IsPlain)

include h

theorem renderEntity {id : EntityId} {kind : EntityKind} (hkind : r.kind? id = some kind) :
    IsPlainName (r.renderEntity id) ∧
      (kind ≠ .individual → ¬Builtin.nameSpace.toList <+: (r.renderEntity id).toList) := by
  obtain ⟨e, he, rfl⟩ := Option.map_eq_some_iff.1 hkind
  have hmem : e ∈ r.all := by
    rw [get?_eq_getElem?] at he
    exact List.mem_of_getElem? he
  have hplain := h.name e hmem
  rcases renderEntity_cases he with hshort | hfull
  · rw [hshort]
    exact ⟨hplain.localName, fun hne => (h.no_builtin e hmem hne).2⟩
  · rw [hfull]
    exact ⟨hplain, fun hne => (h.no_builtin e hmem hne).1⟩

theorem isPredicateName {id : EntityId} {kind : EntityKind} (hkind : r.kind? id = some kind)
    (hne : kind ≠ .individual) : IsPredicateName (r.renderEntity id) :=
  (h.renderEntity hkind).1.isPredicateName ((h.renderEntity hkind).2 hne)

theorem legible {a : Atom EntityId} (ha : a.IsPlain r) : r.Legible a where
  predicate id hid := by
    have hkind := ha.kind
    cases a with
    | member cls arg =>
      cases hid
      exact h.isPredicateName hkind (by decide)
    | link property subject object =>
      cases hid
      obtain ⟨kind, hkind, hproperty⟩ := hkind
      refine h.isPredicateName hkind ?_
      rintro rfl
      cases hproperty
    | builtin op args => cases hid
  constants id hid := (h.renderEntity (ha.constants id hid)).1.isConstantName

end Registry.IsPlain

theorem Atom.IsPlain.proper {registry : Registry} {a : Atom EntityId} (h : a.IsPlain registry) :
    a.Proper registry registry.IsIndividual where
  kind := h.kind
  terms t ht := by
    cases t with
    | const id => exact h.constants id ht
    | var v =>
      have hv : v ∈ a.vars := List.mem_filterMap.2 ⟨_, ht, rfl⟩
      exact Variable.proper_of_isPlainName (h.var_name v hv)

/-! ## Reading back -/

/-- The query was made from parts by the check. -/
def Query.IsBuilt {κ : Type} (query : Query κ) : Prop :=
  ∃ (name : String) (body : List (Atom κ)) (projection : List Variable) (distinct : Bool),
    ofParts name body projection distinct = .ok query

theorem ne_nil_of_checkBody {κ : Type} {name : String} {body : List (Atom κ)}
    (h : checkBody name body = .ok ()) : body ≠ [] := by
  rintro rfl
  cases h

/-- **Plain names round-trip.** In a registry of plain names, a rule or query of plain atoms is
    read back from its text under any name: the atoms, the selection and with them the plan are the
    same, and nothing is registered. -/
theorem parse_render_of_plain {registry : Registry} (hreachable : registry.Reachable)
    (hplain : registry.IsPlain) (name : String) :
    (∀ rule : Rule EntityId, rule.IsBuilt → rule.head ≠ [] →
      (∀ a ∈ rule.body ++ rule.head, a.IsPlain registry) →
      Rule.parse registry name (registry.renderRule rule) = (.ok { rule with name }, registry)) ∧
    ∀ query : Query EntityId, query.IsBuilt → (∀ a ∈ query.body, a.IsPlain registry) →
      Query.parse registry name (registry.renderQuery query) =
        (.ok { query with name }, registry) := by
  have hr := hreachable.indexed
  constructor
  · rintro rule ⟨own, body, head, hparts⟩ hhead hatoms
    have hvalid := Rule.valid_of_ofParts hparts
    obtain ⟨hcheck, -, -⟩ := Rule.ofParts_eq_ok_iff.1 hvalid.ofParts
    exact Rule.parse_renderRule_as hr hvalid (ne_nil_of_checkBody hcheck) hhead
      (fun a ha => ⟨(hatoms a ha).proper, hplain.legible (hatoms a ha)⟩) name
  · rintro query ⟨own, body, projection, distinct, hparts⟩ hatoms
    have hvalid := Query.valid_of_ofParts hparts
    obtain ⟨hcheck, hbound, -⟩ := Query.ofParts_eq_ok_iff.1 hvalid
    -- a selected variable stands in the body
    have hproj : ∀ v ∈ query.projection, v.Proper := by
      intro v hv
      have hbody : v ∈ boundVariables query.body := by
        simpa using List.find?_eq_none.1 hbound v hv
      obtain ⟨a, ha, -, hvar⟩ := mem_boundVariables.1 hbody
      exact Variable.proper_of_isPlainName ((hatoms a ha).var_name v hvar)
    exact Query.parse_renderQuery_as hr hvalid (ne_nil_of_checkBody hcheck)
      (fun a ha => ⟨(hatoms a ha).proper, hplain.legible (hatoms a ha)⟩) hproj name

/-! ## Three entities with one local name -/

namespace Namesakes

def kin : EntityId := .nth 0

def knows : EntityId := .nth 1

def first : EntityId := .nth 2

def second : EntityId := .nth 3

/-- A property, and a class and two individuals with the same local name. -/
def registry : Registry :=
  ((((Registry.empty.intern "kin#alex" .cls).2.intern "in/knows-" .dataProperty).2.intern
    "a#alex" .individual).2.intern "b#alex" .individual).2

def rule : Rule EntityId :=
  ⟨"r", [.link knows (.var ⟨"x-"⟩) (.const first), .link knows (.const second) (.var ⟨"x-"⟩),
    .builtin .notEqual [.var ⟨"x-"⟩, .const first]], [.member kin (.var ⟨"x-"⟩)]⟩

def query : Query EntityId := ⟨"q", rule.body, [⟨"x-"⟩], true⟩

theorem all_registry : registry.all = [⟨kin, .cls, "kin#alex"⟩,
    ⟨knows, .dataProperty, "in/knows-"⟩, ⟨first, .individual, "a#alex"⟩,
    ⟨second, .individual, "b#alex"⟩] := by
  obtain ⟨hbuilt₁, -, hall₁⟩ := @Registry.Built.intern_new _ .empty "kin#alex" .cls kin rfl
    (by simp [Registry.empty, Registry.all])
  obtain ⟨hbuilt₂, -, hall₂⟩ := @Registry.Built.intern_new _ hbuilt₁ "in/knows-" .dataProperty
    knows (by rw [hall₁]; rfl) (by rw [hall₁]; decide)
  rw [hall₁] at hall₂
  obtain ⟨hbuilt₃, -, hall₃⟩ := @Registry.Built.intern_new _ hbuilt₂ "a#alex" .individual
    first (by rw [hall₂]; rfl) (by rw [hall₂]; decide)
  rw [hall₂] at hall₃
  obtain ⟨-, -, hall₄⟩ := @Registry.Built.intern_new _ hbuilt₃ "b#alex" .individual
    second (by rw [hall₃]; rfl) (by rw [hall₃]; decide)
  rw [registry, hall₄, hall₃]
  rfl

theorem reachable_registry : registry.Reachable :=
  .intern _ _ (.intern _ _ (.intern _ _ (.intern _ _ .empty)))

theorem isPlain_registry : registry.IsPlain := by
  constructor
  · rw [all_registry]
    decide
  · rw [all_registry]
    decide

theorem kind?_registry (id : EntityId) : registry.kind? id =
    ([.cls, .dataProperty, .individual, .individual] : List EntityKind)[id.toNat - 1]? := by
  rw [Registry.kind?, Registry.get?_eq_getElem?, all_registry, ← List.getElem?_map]
  rfl

theorem isPlain_atoms : ∀ a ∈ rule.body ++ rule.head, a.IsPlain registry := by
  have hproperty : ∃ kind, registry.kind? knows = some kind ∧ kind.isProperty = true :=
    ⟨_, kind?_registry knows, rfl⟩
  have hkinds : ∀ a ∈ rule.body ++ rule.head, a.WellKinded registry := by
    simp only [rule, List.cons_append, List.nil_append, List.forall_mem_cons]
    exact ⟨hproperty, hproperty, trivial, kind?_registry kin, List.forall_mem_nil _⟩
  have hconstants : ∀ id, (∃ a ∈ rule.body ++ rule.head, Term.const id ∈ a.terms) →
      id = first ∨ id = second := by
    simp [rule, Atom.terms]
  have hvars : ∀ v, (∃ a ∈ rule.body ++ rule.head, v ∈ a.vars) → v = ⟨"x-"⟩ := by
    simp [rule, Atom.vars, Atom.terms, Term.var?]
  intro a ha
  refine ⟨⟨hkinds a ha, fun id hid => ?_⟩, fun v hv => ?_⟩
  · rw [Registry.IsIndividual, kind?_registry]
    rcases hconstants id ⟨a, ha, hid⟩ with rfl | rfl <;> rfl
  · rw [hvars v ⟨a, ha, hv⟩]
    decide

end Namesakes

/-- A rule and a query about namesakes are read back under other names. -/
theorem parse_render_of_plain_namesakes :
    Rule.parse Namesakes.registry "again" (Namesakes.registry.renderRule Namesakes.rule) =
        (.ok { Namesakes.rule with name := "again" }, Namesakes.registry) ∧
      Query.parse Namesakes.registry "again" (Namesakes.registry.renderQuery Namesakes.query) =
        (.ok { Namesakes.query with name := "again" }, Namesakes.registry) := by
  have hatoms := Namesakes.isPlain_atoms
  obtain ⟨hrule, hquery⟩ := parse_render_of_plain Namesakes.reachable_registry
    Namesakes.isPlain_registry "again"
  constructor
  · exact hrule Namesakes.rule ⟨"r", Namesakes.rule.body, Namesakes.rule.head, rfl⟩ (by decide)
      hatoms
  · exact hquery Namesakes.query ⟨"q", Namesakes.rule.body, [⟨"x-"⟩], true, rfl⟩
      (List.forall_mem_append.1 hatoms).1

end HornOntology
