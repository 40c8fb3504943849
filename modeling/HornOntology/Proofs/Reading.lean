import HornOntology.Proofs.Balance
import HornOntology.Proofs.Claiming

set_option autoImplicit false

/-! # What an accepted text gives

A rule or query that was read from a text is `Proper`: each predicate has the kind its atom needs,
each constant is one that the registry offers, and each variable is written as an argument can be.
It passes the checks of construction as it stands, and it keeps all this when its new names are
registered (`Rule.of_parse`, `Query.of_parse`). -/

namespace HornOntology

variable {κ lam : Type}

/-! ## Proper atoms -/

/-- A text that comes back as one argument when it is written between commas in an atom: the
    parentheses of an atom do not take the reader of arrows and carets too deep in it. -/
structure IsArgument (text : List Char) : Prop where
  ne_nil : text ≠ []
  trimmed : Text.Trimmed text
  uncut : Text.Uncut .comma text
  inside_arrow : Text.UncutInside .arrow text
  inside_caret : Text.UncutInside .caret text

instance (text : List Char) : Decidable (IsArgument text) :=
  decidable_of_iff
    (text ≠ [] ∧ Text.Trimmed text ∧ Text.Uncut .comma text ∧ Text.UncutInside .arrow text ∧
      Text.UncutInside .caret text)
    ⟨fun ⟨hne, htrimmed, huncut, harrow, hcaret⟩ => ⟨hne, htrimmed, huncut, harrow, hcaret⟩,
      fun h => ⟨h.ne_nil, h.trimmed, h.uncut, h.inside_arrow, h.inside_caret⟩⟩

/-- A variable that is read as itself where it is written as an argument. -/
structure Variable.Proper (v : Variable) : Prop where
  reads : RuleText.readVariable? v.display.toList = some v
  argument : IsArgument v.display.toList

/-- A proper variable, or a constant with a property. -/
def Term.Proper (K : κ → Prop) : Term κ → Prop
  | .const k => K k
  | .var v => v.Proper

/-- The predicate of an atom has the kind that the atom needs. -/
def Atom.WellKinded (registry : Registry) : Atom κ → Prop
  | .member cls _ => registry.kind? cls = some .cls
  | .link property _ _ => ∃ kind, registry.kind? property = some kind ∧ kind.isProperty = true
  | .builtin _ _ => True

/-- The predicate and all arguments of an atom are as they should be. -/
structure Atom.Proper (registry : Registry) (K : κ → Prop) (a : Atom κ) : Prop where
  kind : a.WellKinded registry
  terms : ∀ t ∈ a.terms, t.Proper K

theorem Term.Rel.proper {R : κ → lam → Prop} {K : κ → Prop} {L : lam → Prop}
    (hKL : ∀ k l, R k l → K k → L l) {t : Term κ} {u : Term lam} (h : t.Rel R u)
    (ht : t.Proper K) : u.Proper L := by
  cases h with
  | const hk => exact hKL _ _ hk ht
  | var v => exact ht

theorem Atom.Rel.proper {R : κ → lam → Prop} {K : κ → Prop} {L : lam → Prop}
    (hKL : ∀ k l, R k l → K k → L l) {r r' : Registry} (hext : r.Extends r') {a : Atom κ}
    {b : Atom lam} (h : a.Rel R b) (ha : a.Proper r K) : b.Proper r' L where
  kind := by
    have hkind := ha.kind
    cases h with
    | member cls _ => exact hext.kind?_eq hkind
    | link property _ _ =>
      obtain ⟨kind, hproperty, hisProperty⟩ := hkind
      exact ⟨kind, hext.kind?_eq hproperty, hisProperty⟩
    | builtin op _ => trivial
  terms := forall_mem_of_forall₂ (fun _ _ htu ht => htu.proper hKL ht) h.terms ha.terms

namespace RuleText

variable {registry : Registry}

/-! ## Arguments -/

theorem proper_of_readVariable? {arg : List Char} {v : Variable} (harg : IsArgument arg)
    (h : readVariable? arg = some v) : v.Proper := by
  have hdisplay : v.display.toList = arg := by
    unfold readVariable? at h
    split at h
    · cases h
      simp [Variable.display]
    · cases h
  exact ⟨hdisplay ▸ h, hdisplay ▸ harg⟩

theorem exists_of_splitOpen {text before after : List Char}
    (h : splitOpen text = some (before, after)) : text = before ++ '(' :: after ∧ '(' ∉ before := by
  induction text generalizing before with
  | nil => cases h
  | cons c text ih =>
    rw [splitOpen] at h
    split at h
    · next hc =>
      cases h
      exact ⟨by rw [hc]; rfl, List.not_mem_nil⟩
    · next hc =>
      obtain ⟨⟨start, rest⟩, hsplit, heq⟩ := Option.map_eq_some_iff.1 h
      cases heq
      obtain ⟨rfl, hstart⟩ := ih hsplit
      exact ⟨rfl, List.not_mem_cons_of_ne_of_not_mem (Ne.symm hc) hstart⟩

theorem eq_of_stripClose {text inner : List Char} (h : stripClose text = some inner) :
    text = inner ++ [')'] := by
  unfold stripClose at h
  split at h
  · next hlast =>
    cases h
    exact (List.dropLast_append_getLast? _ hlast).symm
  · cases h

theorem exists_of_splitAtom {input : String} {text name : List Char} {args : List (List Char)}
    (h : splitAtom input text = .ok (name, args)) :
    ∃ before inner, text = before ++ '(' :: (inner ++ [')']) ∧ '(' ∉ before ∧
      arguments inner = .ok args ∧ args.any List.isEmpty = false := by
  unfold splitAtom at h
  split at h
  swap
  · cases h
  next before after hopen =>
  split at h
  swap
  · cases h
  next inner hclose =>
  dsimp only at h
  split at h
  · cases h
  obtain ⟨found, hfound, h⟩ := exists_of_bind_eq_ok h
  split at h
  · cases h
  · next hne =>
    cases h
    obtain ⟨rfl, hbefore⟩ := exists_of_splitOpen hopen
    exact ⟨before, inner, by rw [← eq_of_stripClose hclose], hbefore, hfound,
      Bool.eq_false_iff.2 hne⟩

/-- What an atom can be read around can be read in it, argument by argument. -/
theorem isArgument_of_splitAtom {input : String} {text name : List Char}
    {args : List (List Char)} (harrow : Text.Uncut .arrow text) (hcaret : Text.Uncut .caret text)
    (h : splitAtom input text = .ok (name, args)) : ∀ arg ∈ args, IsArgument arg := by
  obtain ⟨before, inner, rfl, hbefore, hargs, hne⟩ := exists_of_splitAtom h
  unfold arguments at hargs
  split at hargs
  · cases hargs
    exact fun arg harg => absurd harg List.not_mem_nil
  · have hcomma := Text.Separator.comma_isPlain
    obtain ⟨parts, hparts, rfl⟩ := exists_of_map_eq_ok hargs
    have hsplit := eq_ok_of_mapError hparts
    have huncut := Text.uncut_of_mem_splitTopLevel hcomma hsplit
    have hinside {sep : Text.Separator} (hsep : sep.IsPlain) (hglue : sep.Ignores ',')
        (hrest : ',' ∉ sep.rest) (houtside : Text.Uncut sep (before ++ '(' :: (inner ++ [')']))) :
        ∀ part ∈ parts, Text.UncutInside sep part := by
      have hread := Text.walk_of_splitTopLevel hcomma hsplit
      have hwhole := Text.uncutInside_of_uncut_application hsep hbefore houtside hread
      rw [← Text.intercalate_of_splitTopLevel hcomma hsplit] at hwhole
      refine Text.walk_of_walk_intercalate (List.forall_mem_singleton.2 hglue) hrest ?_ hwhole
      exact fun part hpart k hk => Text.eq_deeper_of_walk (huncut part hpart) hk
    intro arg harg
    obtain ⟨part, hpart, rfl⟩ := List.mem_map.1 harg
    have harrows := hinside Text.Separator.arrow_isPlain (by decide) (by decide) harrow part hpart
    have hcarets := hinside Text.Separator.caret_isPlain (by decide) (by decide) hcaret part hpart
    exact {
      ne_nil := by simpa using List.any_eq_false.1 hne _ harg
      trimmed := Text.trimmed_trim part
      uncut := (huncut part hpart).trim hcomma
      inside_arrow := harrows.trim Text.Separator.arrow_isPlain
      inside_caret := hcarets.trim Text.Separator.caret_isPlain }

/-! ## Terms and atoms -/

theorem offers_of_constant {name : String} {c : Constant} (h : checked registry name = .ok c) :
    registry.Offers c := by
  unfold checked at h
  split at h
  · next id _ =>
    split at h
    · next hkind =>
      cases h
      exact hkind
    · cases h
    · cases h
  · next missing hresolve =>
    cases h
    rw [(Registry.of_resolve_notFound hresolve).2] at hresolve
    exact hresolve
  · cases h

theorem proper_of_term {arg : List Char} {t : Term Constant} (harg : IsArgument arg)
    (h : term (checked registry) arg = .ok t) : t.Proper registry.Offers := by
  unfold term at h
  split at h
  · next v hv =>
    cases h
    exact proper_of_readVariable? harg hv
  · obtain ⟨c, hc, rfl⟩ := exists_of_map_eq_ok h
    exact offers_of_constant hc

/-- The predicate of an atom that was read has the right kind, and each argument was read as the
    term at its place. -/
theorem of_relationalAtom {name : String} {args : List (List Char)} {a : Atom Constant}
    (h : relationalAtom registry (checked registry) name args = .ok a) :
    a.WellKinded registry ∧
      List.Forall₂ (fun arg t => term (checked registry) arg = .ok t) args a.terms := by
  unfold relationalAtom at h
  split at h
  · cases h
  · cases h
  · next id _ =>
    split at h
    · cases h
    · cases h
    · next arg hkind =>
      obtain ⟨t, ht, h⟩ := exists_of_bind_eq_ok h
      cases h
      exact ⟨hkind, .cons ht .nil⟩
    · cases h
    · next kind subject object hindividual hcls hkind =>
      obtain ⟨s, hs, h⟩ := exists_of_bind_eq_ok h
      obtain ⟨o, ho, h⟩ := exists_of_bind_eq_ok h
      cases h
      refine ⟨⟨kind, hkind, ?_⟩, .cons hs (.cons ho .nil)⟩
      cases kind with
      | cls => exact absurd rfl hcls
      | individual => exact absurd rfl hindividual
      | objectProperty => rfl
      | dataProperty => rfl
    · cases h

theorem of_builtinAtom {name : String} {args : List (List Char)} {a : Atom Constant}
    (h : builtinAtom (checked registry) name args = .ok a) :
    a.WellKinded registry ∧
      List.Forall₂ (fun arg t => term (checked registry) arg = .ok t) args a.terms := by
  unfold builtinAtom at h
  split at h
  · cases h
  · obtain ⟨ts, hts, h⟩ := exists_of_bind_eq_ok h
    cases h
    exact ⟨trivial, mapM_eq_ok_iff.1 hts⟩

theorem of_atom {input : String} {text : List Char} {a : Atom Constant}
    (h : atom registry (checked registry) input text = .ok a) :
    ∃ name args, splitAtom input text = .ok (name, args) ∧ a.WellKinded registry ∧
      List.Forall₂ (fun arg t => term (checked registry) arg = .ok t) args a.terms := by
  unfold atom at h
  split at h
  · cases h
  · obtain ⟨⟨name, args⟩, hsplit, h⟩ := exists_of_bind_eq_ok h
    refine ⟨name, args, eq_ok_of_ofExcept hsplit, ?_⟩
    dsimp only at h
    split at h
    · exact of_builtinAtom h
    · exact of_relationalAtom h

theorem proper_of_atom {input : String} {text : List Char} {a : Atom Constant}
    (harrow : Text.Uncut .arrow text) (hcaret : Text.Uncut .caret text)
    (h : atom registry (checked registry) input text = .ok a) :
    a.Proper registry registry.Offers := by
  obtain ⟨name, args, hsplit, hkind, hterms⟩ := of_atom h
  exact ⟨hkind, forall_mem_of_forall₂ (fun _ _ ht harg => proper_of_term harg ht) hterms
    (isArgument_of_splitAtom harrow hcaret hsplit)⟩

/-- A conjunction that was read has an atom, and all its atoms are proper. -/
theorem proper_of_conjunction {input : String} {side : List Char} {atoms : List (Atom Constant)}
    (hside : Text.Uncut .arrow side)
    (h : conjunction registry (checked registry) input side = .ok atoms) :
    atoms ≠ [] ∧ ∀ a ∈ atoms, a.Proper registry registry.Offers := by
  obtain ⟨parts, hparts, h⟩ := exists_of_bind_eq_ok h
  have hatoms := mapM_eq_ok_iff.1 h
  have hcaret := Text.Separator.caret_isPlain
  have hsplit := eq_ok_of_mapError (eq_ok_of_ofExcept hparts)
  constructor
  · rintro rfl
    rw [List.forall₂_nil_right_iff] at hatoms
    exact Text.ne_nil_of_splitTopLevel hcaret hsplit hatoms
  · have huncut := Text.uncut_of_mem_splitTopLevel hcaret hsplit
    have harrows : ∀ part ∈ parts, Text.Uncut .arrow part := by
      rw [← Text.intercalate_of_splitTopLevel hcaret hsplit] at hside
      refine Text.walk_of_walk_intercalate (List.forall_mem_singleton.2 (by decide)) (by decide) ?_
        hside
      exact fun part hpart k hk => Text.eq_of_walk (huncut part hpart) hk
    refine forall_mem_of_forall₂ (P := fun part => Text.Uncut .arrow part ∧ Text.Uncut .caret part)
      (fun part a ha hpart => ?_) hatoms fun part hpart => ⟨harrows part hpart, huncut part hpart⟩
    exact proper_of_atom (hpart.1.trim Text.Separator.arrow_isPlain) (hpart.2.trim hcaret) ha

/-! ## Rules and queries -/

theorem splitTopLevel_of_sides {text : String} {body head : List Char}
    (h : sides text = .ok (body, head)) :
    Text.splitTopLevel .arrow text.toList = .ok [body, head] := by
  obtain ⟨parts, hparts, h⟩ := exists_of_bind_eq_ok h
  split at h
  · cases h
    exact eq_ok_of_mapError hparts
  · cases h
  · cases h

theorem uncut_of_sides {text : String} {body head : List Char}
    (h : sides text = .ok (body, head)) : Text.Uncut .arrow body ∧ Text.Uncut .arrow head := by
  have hplain := Text.Separator.arrow_isPlain
  simpa using Text.uncut_of_mem_splitTopLevel hplain (splitTopLevel_of_sides h)

theorem exists_of_readRule {name text : String} {draft : Rule Constant}
    (h : readRule registry (checked registry) name text = .ok draft) :
    ∃ bodyText headText body head, sides text = .ok (bodyText, headText) ∧
      conjunction registry (checked registry) text bodyText = .ok body ∧
      conjunction registry (checked registry) text headText = .ok head ∧
      Rule.ofParts name body head = .ok draft := by
  obtain ⟨⟨bodyText, headText⟩, hsides, h⟩ := exists_of_bind_eq_ok h
  obtain ⟨body, hbody, h⟩ := exists_of_bind_eq_ok h
  obtain ⟨head, hhead, h⟩ := exists_of_bind_eq_ok h
  exact ⟨bodyText, headText, body, head, eq_ok_of_ofExcept hsides, hbody, hhead,
    eq_ok_of_ofExcept h⟩

theorem exists_of_readQuery {name text : String} {draft : Query Constant}
    (h : readQuery registry (checked registry) name text = .ok draft) :
    ∃ bodyText headText body distinct projection, sides text = .ok (bodyText, headText) ∧
      conjunction registry (checked registry) text bodyText = .ok body ∧
      selection text headText = .ok (distinct, projection) ∧
      Query.ofParts name body projection distinct = .ok draft := by
  obtain ⟨⟨bodyText, headText⟩, hsides, h⟩ := exists_of_bind_eq_ok h
  obtain ⟨body, hbody, h⟩ := exists_of_bind_eq_ok h
  obtain ⟨⟨distinct, projection⟩, hselection, h⟩ := exists_of_bind_eq_ok h
  exact ⟨bodyText, headText, body, distinct, projection, eq_ok_of_ofExcept hsides, hbody,
    eq_ok_of_ofExcept hselection, eq_ok_of_ofExcept h⟩

theorem of_readRule {name text : String} {draft : Rule Constant}
    (h : readRule registry (checked registry) name text = .ok draft) :
    draft.name = name ∧ draft.Valid ∧ draft.body ≠ [] ∧ draft.head ≠ [] ∧
      ∀ a ∈ draft.body ++ draft.head, a.Proper registry registry.Offers := by
  obtain ⟨bodyText, headText, body, head, hsides, hbody, hhead, hparts⟩ := exists_of_readRule h
  obtain ⟨hbodyText, hheadText⟩ := uncut_of_sides hsides
  have hvalid := Rule.valid_of_ofParts hparts
  obtain ⟨-, -, rfl⟩ := Rule.ofParts_eq_ok_iff.1 hparts
  obtain ⟨hbne, hbody⟩ := proper_of_conjunction hbodyText hbody
  obtain ⟨hhne, hhead⟩ := proper_of_conjunction hheadText hhead
  refine ⟨rfl, hvalid, hbne, ?_, List.forall_mem_append.2 ⟨hbody, fun a ha => ?_⟩⟩
  · obtain ⟨a, ha⟩ := List.exists_mem_of_ne_nil _ hhne
    exact List.ne_nil_of_mem (List.mem_eraseDups.2 ha)
  · exact hhead a (List.mem_eraseDups.1 ha)

theorem of_readQuery {name text : String} {draft : Query Constant}
    (h : readQuery registry (checked registry) name text = .ok draft) :
    draft.name = name ∧ draft.Valid ∧ draft.body ≠ [] ∧
      (∀ a ∈ draft.body, a.Proper registry registry.Offers) ∧
      ∀ v ∈ draft.projection, v.Proper := by
  obtain ⟨bodyText, headText, body, distinct, projection, hsides, hbody, -, hparts⟩ :=
    exists_of_readQuery h
  have hvalid := Query.valid_of_ofParts hparts
  obtain ⟨-, hbound, rfl⟩ := Query.ofParts_eq_ok_iff.1 hparts
  obtain ⟨hbne, hbody⟩ := proper_of_conjunction (uncut_of_sides hsides).1 hbody
  refine ⟨rfl, hvalid, hbne, hbody, fun v hv => ?_⟩
  -- a selected variable is bound by an atom, in which it was read
  have hv : v ∈ boundVariables body := by simpa using List.find?_eq_none.1 hbound v hv
  obtain ⟨a, ha, hv⟩ := List.mem_flatMap.1 hv
  obtain ⟨t, ht, hvar⟩ := List.mem_filterMap.1 hv
  have hproper := (hbody a (List.mem_of_mem_filter ha)).terms t ht
  cases t with
  | const c => cases hvar
  | var w =>
    cases hvar
    exact hproper

end RuleText

/-! ## After the new names are registered -/

/-- The constants of finished atoms are registered individuals. -/
def Registry.IsIndividual (r : Registry) (id : EntityId) : Prop := r.kind? id = some .individual

/-- The predicate has the kind that the atom needs, and the constants are individuals. -/
structure Atom.Registered (registry : Registry) (a : Atom EntityId) : Prop where
  kind : a.WellKinded registry
  constants : ∀ id, Term.const id ∈ a.terms → registry.IsIndividual id

theorem Atom.Proper.registered {registry : Registry} {a : Atom EntityId}
    (h : a.Proper registry registry.IsIndividual) : a.Registered registry :=
  ⟨h.kind, fun _ hid => h.terms _ hid⟩

/-- Whatever becomes of a text, the registry stays well-formed and only grows. -/
theorem commit_extends {α β : Type} {constants : α → List Constant} {intern : α → RegistryM β}
    {S : Registry → α → β → Prop} (hintern : Settles intern S) {r r' : Registry}
    (hr : r.WellFormed) {plain : Except Error α} {reading : RuleText.Reading α}
    (hreading : RuleText.Follows r
      (fun met draft => freshNames met = freshNames (constants draft)) plain reading)
    {result : Except Error β} (h : commit intern r reading = (result, r'))
    (hleft : result ≠ .error (.registry .exhausted)) : r'.WellFormed ∧ r.Extends r' := by
  rcases commit_cases hreading intern with ⟨draft, -, -, hcommit⟩ | ⟨e, hcommit, -⟩
  · cases hcommit.symm.trans h
    have hrun : ((intern draft).run r).1 ≠ .error .exhausted :=
      fun hrun => hleft (congrArg (Except.mapError Error.registry) hrun)
    obtain ⟨hr', hext, -⟩ := hintern.meets draft hr hrun
    exact ⟨hr', hext⟩
  · cases hcommit.symm.trans h
    exact ⟨hr, .refl r⟩

/-- An individual stays one, and a new name becomes one. -/
theorem Registry.Becomes.isIndividual {r r' : Registry} (hext : r.Extends r') {c : Constant}
    {id : EntityId} (h : r.Becomes r' c id) : r'.IsIndividual id := by
  obtain ⟨hoffers, hden⟩ := h
  cases c with
  | known known =>
    cases hden
    exact hext.kind?_eq hoffers
  | fresh name => rw [IsIndividual, kind?, show r'.get? id = _ from hden, Option.map_some]

theorem Term.Rel.becomes {r r' : Registry} {t : Term Constant} {u : Term EntityId}
    (h : t.Rel r'.Denotes u) (ht : t.Proper r.Offers) : t.Rel (r.Becomes r') u := by
  cases h with
  | const hk => exact .const ⟨ht, hk⟩
  | var v => exact .var v

theorem Atom.Rel.becomes {r r' : Registry} {a : Atom Constant} {b : Atom EntityId}
    (h : a.Rel r'.Denotes b) (ha : a.Proper r r.Offers) : a.Rel (r.Becomes r') b := by
  have hterms := ha.terms
  cases h with
  | member cls ht => exact .member cls (ht.becomes (hterms _ List.mem_cons_self))
  | link property hs ho =>
    exact .link property (hs.becomes (hterms _ List.mem_cons_self))
      (ho.becomes (hterms _ (List.mem_cons_of_mem _ List.mem_cons_self)))
  | builtin op hts =>
    refine .builtin op (((List.forall₂_and_left _ _).2 ⟨hterms, hts⟩).imp ?_)
    exact fun _ _ h => h.2.becomes h.1

theorem forall₂_becomes {r r' : Registry} {atoms : List (Atom Constant)}
    {atoms' : List (Atom EntityId)} (h : List.Forall₂ (Atom.Rel r'.Denotes) atoms atoms')
    (hproper : ∀ a ∈ atoms, a.Proper r r.Offers) :
    List.Forall₂ (Atom.Rel (r.Becomes r')) atoms atoms' :=
  ((List.forall₂_and_left _ _).2 ⟨hproper, h⟩).imp fun _ _ h => h.2.becomes h.1

/-- Atoms that were read stay proper. -/
theorem proper_of_becomes {r r' : Registry} (hext : r.Extends r') {atoms : List (Atom Constant)}
    {atoms' : List (Atom EntityId)} (h : List.Forall₂ (Atom.Rel (r.Becomes r')) atoms atoms')
    (hproper : ∀ a ∈ atoms, a.Proper r r.Offers) : ∀ b ∈ atoms', b.Proper r' r'.IsIndividual :=
  forall_mem_of_forall₂
    (fun _ _ hab ha => hab.proper (fun _ _ hk _ => hk.isIndividual hext) hext ha) h hproper

theorem ne_nil_of_forall₂ {α β : Type} {S : α → β → Prop} {l : List α} {l' : List β}
    (h : List.Forall₂ S l l') (hne : l ≠ []) : l' ≠ [] := by
  rintro rfl
  exact hne (List.forall₂_nil_right_iff.1 h)

/-- An accepted rule passes the checks as it stands, and its atoms are proper. -/
theorem Rule.of_parse {r r' : Registry} {name text : String} {rule : Rule EntityId}
    (hr : r.WellFormed) (h : Rule.parse r name text = (.ok rule, r')) :
    r'.WellFormed ∧ rule.name = name ∧ rule.Valid ∧ rule.body ≠ [] ∧ rule.head ≠ [] ∧
      ∀ a ∈ rule.body ++ rule.head, a.Proper r' r'.IsIndividual := by
  obtain ⟨draft, hread, -, hrun⟩ :=
    (commit_eq_ok_iff (RuleText.follows_readRule hr.indexed name text)).1 h
  obtain ⟨hname, hvalid, hbne, hhne, hproper⟩ := RuleText.of_readRule hread
  obtain ⟨hr', hext, hrel⟩ := Registry.settles_intern.rule.run hr hrun
  rw [List.forall_mem_append] at hproper ⊢
  have hbody := forall₂_becomes hrel.body hproper.1
  have hhead := forall₂_becomes hrel.head hproper.2
  refine ⟨hr', hrel.name_eq.symm.trans hname, ?_, ne_nil_of_forall₂ hbody hbne,
    ne_nil_of_forall₂ hhead hhne, proper_of_becomes hext hbody hproper.1,
    proper_of_becomes hext hhead hproper.2⟩
  exact Rule.Rel.valid (Registry.biUnique_becomes hr hr' hext) ⟨hrel.name_eq, hbody, hhead⟩ hvalid

/-- An accepted query passes the checks as it stands, and its atoms are proper. -/
theorem Query.of_parse {r r' : Registry} {name text : String} {query : Query EntityId}
    (hr : r.WellFormed) (h : Query.parse r name text = (.ok query, r')) :
    r'.WellFormed ∧ query.name = name ∧ query.Valid ∧ query.body ≠ [] ∧
      (∀ a ∈ query.body, a.Proper r' r'.IsIndividual) ∧
      ∀ v ∈ query.projection, v.Proper := by
  obtain ⟨draft, hread, -, hrun⟩ :=
    (commit_eq_ok_iff (RuleText.follows_readQuery hr.indexed name text)).1 h
  obtain ⟨hname, hvalid, hbne, hproper, hproj⟩ := RuleText.of_readQuery hread
  obtain ⟨hr', hext, hrel⟩ := Registry.settles_intern.query.run hr hrun
  have hbody := forall₂_becomes hrel.body hproper
  refine ⟨hr', hrel.name_eq.symm.trans hname, hrel.valid hvalid, ne_nil_of_forall₂ hbody hbne,
    proper_of_becomes hext hbody hproper, ?_⟩
  rwa [← hrel.projection_eq]

end HornOntology
