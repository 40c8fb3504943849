import HornOntology.Proofs.Exchange
import HornOntology.Proofs.Plan
import HornOntology.Proofs.Registration

set_option autoImplicit false

/-! # Reading a text with stand-ins

A rule can be checked before its new names are registered: each of them is given an identifier that
nobody has, the checks and the plan are made with these stand-ins, and afterwards every stand-in is
exchanged for the individual of its name. This gives the rule that reading gives, whichever
stand-ins are taken (`parse_constants`); reading claims the last identifiers for them
(`RuleText.Follows.lookup_eq`).

It does so because stand-ins keep constants apart (`Registry.StandsIn.standIn_inj`), and what keeps
constants apart commutes with everything that is made before the exchange: with dropping the
repetitions of a head (`Rule.ofParts_map`) and with planning a body (`plan_map`). The identifiers
that the names are given in the end are stand-ins as well, so the same argument shows that the
finished rule passes the checks. -/

namespace HornOntology

/-! ## Stand-ins -/

/-- The identifiers from the last one down. -/
def EntityId.fromLast (n : Nat) : EntityId := .nth (2 ^ 32 - 2 - n)

theorem EntityId.toNat_fromLast {n : Nat} (h : n < 2 ^ 32 - 1) :
    (fromLast n).toNat = 2 ^ 32 - 1 - n := by
  have hword : (UInt32.ofNat (2 ^ 32 - 2 - n + 1)).toNat = 2 ^ 32 - 1 - n := by
    rw [UInt32.toNat_ofNat']
    omega
  have hne : UInt32.ofNat (2 ^ 32 - 2 - n + 1) ≠ 0 := by
    intro hzero
    rw [hzero, UInt32.toNat_zero] at hword
    omega
  rw [fromLast, nth, ofRaw?, dif_pos hne]
  exact hword

/-- The last identifiers as stand-ins, in the order of the names. -/
def lastStandIns (names : List String) (name : String) : EntityId := .fromLast (names.idxOf name)

/-- The constant as an entity, with a stand-in for a name that is still to be registered. -/
def Constant.standIn (p : String → EntityId) : Constant → EntityId
  | known id => id
  | fresh name => p name

/-- Put the entities `q` of the names in the place of their stand-ins `p`. -/
def exchange (names : List String) (p q : String → EntityId) (id : EntityId) : EntityId :=
  match names.find? fun name => p name = id with
  | some name => q name
  | none => id

namespace RuleText

/-- Read a rule with stand-ins for its new names. -/
def readRuleWith (p : String → EntityId) (registry : Registry) (name text : String) :
    Except Error (Rule EntityId) := do
  let (body, head) ← (sides text).mapError .text
  let body ← conjunction registry (checked registry) text body
  let head ← conjunction registry (checked registry) text head
  (Rule.ofParts name (body.map (Atom.map (Constant.standIn p)))
    (head.map (Atom.map (Constant.standIn p)))).mapError .rule

/-- Read a query with stand-ins for its new names. -/
def readQueryWith (p : String → EntityId) (registry : Registry) (name text : String) :
    Except Error (Query EntityId) := do
  let (body, head) ← (sides text).mapError .text
  let body ← conjunction registry (checked registry) text body
  let (distinct, projection) ← (selection text head).mapError .text
  (Query.ofParts name (body.map (Atom.map (Constant.standIn p))) projection distinct).mapError .rule

end RuleText

namespace Registry

variable {r : Registry} {names : List String} {p q : String → EntityId}

/-- The names are given different identifiers that nobody has. -/
structure StandsIn (r : Registry) (names : List String) (p : String → EntityId) : Prop where
  unregistered : ∀ name ∈ names, r.get? (p name) = none
  distinct : ∀ name ∈ names, ∀ name' ∈ names, p name = p name' → name = name'

/-- The constant is on offer, and among these names if it is new. -/
def OffersAmong (r : Registry) (names : List String) (c : Constant) : Prop :=
  r.Offers c ∧ ∀ name, c = .fresh name → name ∈ names

theorem Offers.get?_ne_none {id : EntityId} (h : r.Offers (.known id)) : r.get? id ≠ none := by
  intro hnone
  rw [Offers, kind?, hnone] at h
  cases h

/-- Stand-ins keep constants apart: from each other, and from the registered individuals. -/
theorem StandsIn.standIn_inj (hp : r.StandsIn names p) (c : Constant) (hc : r.OffersAmong names c)
    (c' : Constant) (hc' : r.OffersAmong names c') (h : c.standIn p = c'.standIn p) : c = c' := by
  rcases c with id | name <;> rcases c' with id' | name'
  · exact congrArg Constant.known h
  · have hid : id = p name' := h
    exact absurd (hid ▸ hp.unregistered name' (hc'.2 name' rfl)) hc.1.get?_ne_none
  · have hid : p name = id' := h
    exact absurd (hid ▸ hp.unregistered name (hc.2 name rfl)) hc'.1.get?_ne_none
  · exact congrArg Constant.fresh (hp.distinct name (hc.2 name rfl) name' (hc'.2 name' rfl) h)

/-- After the exchange each constant is what it should be. -/
theorem StandsIn.exchange_standIn (hp : r.StandsIn names p) {c : Constant}
    (hc : r.OffersAmong names c) : exchange names p q (c.standIn p) = c.standIn q := by
  unfold exchange
  cases c with
  | known id =>
    have hnone : (names.find? fun name => p name = id) = none := by
      refine List.find?_eq_none.2 fun name hname heq => ?_
      have hid : p name = id := by simpa using heq
      exact hc.1.get?_ne_none (hid ▸ hp.unregistered name hname)
    rw [show Constant.standIn p (.known id) = id from rfl, hnone]
    rfl
  | fresh name =>
    have hname := hc.2 name rfl
    have hfind : (names.find? fun other => p other = p name) = some name := by
      cases hfound : names.find? fun other => p other = p name with
      | none => simpa using List.find?_eq_none.1 hfound name hname
      | some other =>
        have heq : p other = p name := by simpa using List.find?_some hfound
        rw [hp.distinct other (List.mem_of_find?_eq_some hfound) name hname heq]
    rw [show Constant.standIn p (.fresh name) = p name from rfl, hfind]
    rfl

/-- The last identifiers can stand in as long as there is one for each name. -/
theorem WellFormed.standsIn_last (hr : r.WellFormed) (hroom : names.length ≤ r.unused) :
    r.StandsIn names (lastStandIns names) := by
  have hlength := hr.length_lt
  rw [unused] at hroom
  have hplace : ∀ name ∈ names, (lastStandIns names name).toNat =
      2 ^ 32 - 1 - names.idxOf name ∧ names.idxOf name < names.length := by
    intro name hname
    have hlt := List.idxOf_lt_length_of_mem hname
    exact ⟨EntityId.toNat_fromLast (by omega), hlt⟩
  constructor
  · intro name hname
    obtain ⟨hid, hlt⟩ := hplace name hname
    rw [get?_eq_getElem?, hid]
    exact List.getElem?_eq_none (by omega)
  · intro name hname name' hname' heq
    obtain ⟨hid, hlt⟩ := hplace name hname
    obtain ⟨hid', hlt'⟩ := hplace name' hname'
    rw [heq, hid'] at hid
    exact (List.idxOf_inj hname).1 (by omega)

end Registry

section Claims

variable {r : Registry}

/-- What new names claim are the last identifiers, in the order of the names. -/
theorem RuleText.Claims.lookup_eq {names : List String} {met : Constants} (h : Claims r names met)
    {name : String} (hname : name ∈ names) :
    met.fresh.lookup name = some (lastStandIns names name) := by
  have hplace : names.idxOf name < names.length := List.idxOf_lt_length_of_mem hname
  have hids := congrArg (fun ids => ids[names.idxOf name]?) h.ids_eq
  simp only [List.getElem?_map, List.getElem?_range hplace, Option.map_some] at hids
  obtain ⟨claim, hclaim, hid⟩ := Option.map_eq_some_iff.1 hids
  rw [lookup_eq_getElem?, h.names_eq, hclaim, Option.map_some]
  refine congrArg some (EntityId.toNat_inj ?_)
  have hroom := h.room
  rw [Registry.unused] at hroom
  rw [hid, lastStandIns, EntityId.toNat_fromLast (by omega)]

/-- A text that is read to its end has claimed these stand-ins for its new names. -/
theorem RuleText.Follows.lookup_eq {α : Type} {constants : α → List Constant}
    {plain : Except Error α} {reading : Reading α}
    (h : Follows r (fun met draft => freshNames met = freshNames (constants draft)) plain reading)
    {draft : α} {met : Constants} (hrun : reading.run .start = .ok (draft, met)) :
    ∀ name ∈ freshNames (constants draft),
      met.fresh.lookup name = some (lastStandIns (freshNames (constants draft)) name) := by
  have hstart := h.run_start
  cases plain with
  | error e => rcases hstart with hstart | hstart <;> cases hstart.symm.trans hrun
  | ok plainDraft =>
    dsimp only at hstart
    split at hstart
    · obtain ⟨met', hstart, hclaims⟩ := hstart
      cases hstart.symm.trans hrun
      exact fun name hname => hclaims.lookup_eq hname
    · cases hstart.symm.trans hrun

end Claims

namespace Registry

variable {r : Registry} {names : List String} {p q : String → EntityId}

/-- The names became individuals: each has a new identifier of its own. -/
structure Interns (r r' : Registry) (names : List String) (q : String → EntityId) : Prop where
  standsIn : r.StandsIn names q
  individual : ∀ name ∈ names, r'.get? (q name) = some ⟨q name, .individual, name⟩

theorem exists_interns {r' : Registry} (hr : r.WellFormed) (hext : r.Extends r')
    (hnew : ∀ name ∈ names, r.Offers (.fresh name))
    (hnames : ∀ name ∈ names, ∃ id, r'.Denotes (.fresh name) id) : ∃ q, r.Interns r' names q := by
  have : Nonempty EntityId := ⟨.nth 0⟩
  choose! q hq using hnames
  refine ⟨q, ⟨fun name hname => ?_, fun name hname name' hname' heq => ?_⟩, hq⟩
  · -- an entity with that identifier would have the name already
    cases hget : r.get? (q name) with
    | none => rfl
    | some e =>
      have he : e = ⟨q name, .individual, name⟩ :=
        Option.some.inj ((hext.get?_eq hget).symm.trans (hq name hname))
      have hfound := hr.ids_name hget
      rw [he, (of_resolve_notFound (hnew name hname)).1] at hfound
      cases hfound
  · have hsame : r'.get? (q name) = _ := heq ▸ hq name' hname'
    cases Option.some.inj ((hq name hname).symm.trans hsame)
    rfl

/-- What a constant that is written with a name stands for: the entity that the name means, or
    else the one that it is given. -/
def Means (r : Registry) (q : String → EntityId) (name : String) (id : EntityId) : Prop :=
  r.resolve name = .ok id ∨ r.resolve name = .error (.notFound name) ∧ id = q name

end Registry

/-! ## Texts -/

namespace RuleText

variable {r : Registry} {input : String} (q : String → EntityId)

/-- The term that an argument writes, a constant by its name. -/
def writtenTerm (arg : List Char) : Term String :=
  match readVariable? arg with
  | some v => .var v
  | none => .const (String.ofList (literal arg))

/-- The atom has the arguments that the text writes. -/
def Writes (r : Registry) (q : String → EntityId) (input : String) (part : List Char)
    (a : Atom EntityId) : Prop :=
  ∃ name args, splitAtom input (Text.trim part) = .ok (name, args) ∧
    List.Forall₂ (fun arg t => (writtenTerm arg).Rel (r.Means q) t) args a.terms

/-- The atoms are those between the carets of one side of the arrow. -/
def SideWrites (r : Registry) (q : String → EntityId) (input : String) (side : List Char)
    (atoms : List (Atom EntityId)) : Prop :=
  ∃ parts, split .caret side = .ok parts ∧ List.Forall₂ (Writes r q input) parts atoms

theorem means_of_checked {name : String} {c : Constant} (h : checked r name = .ok c) :
    r.Means q name (c.standIn q) := by
  unfold checked at h
  split at h
  · next id hid =>
    split at h
    · cases h
      exact .inl hid
    · cases h
    · cases h
  · next missing hmissing =>
    cases h
    rw [(Registry.of_resolve_notFound hmissing).2] at hmissing
    exact .inr ⟨hmissing, rfl⟩
  · cases h

theorem rel_writtenTerm {arg : List Char} {t : Term Constant} (h : term (checked r) arg = .ok t) :
    (writtenTerm arg).Rel (r.Means q) (t.map (Constant.standIn q)) := by
  unfold term at h
  unfold writtenTerm
  cases hv : readVariable? arg with
  | some v =>
    rw [hv] at h
    cases h
    exact .var v
  | none =>
    rw [hv] at h
    obtain ⟨c, hc, h⟩ := exists_of_bind_eq_ok h
    cases h
    exact .const (means_of_checked q hc)

theorem sideWrites_of_conjunction {side : List Char} {atoms : List (Atom Constant)}
    (h : conjunction r (checked r) input side = .ok atoms) :
    SideWrites r q input side (atoms.map (Atom.map (Constant.standIn q))) := by
  obtain ⟨parts, hparts, h⟩ := exists_of_bind_eq_ok h
  refine ⟨parts, eq_ok_of_ofExcept hparts, List.forall₂_map_right_iff.2 ?_⟩
  refine (mapM_eq_ok_iff.1 h).imp fun part a ha => ?_
  obtain ⟨name, args, hsplit, -, hterms⟩ := of_atom ha
  refine ⟨name, args, hsplit, ?_⟩
  rw [Atom.terms_map]
  exact List.forall₂_map_right_iff.2 (hterms.imp fun _ _ ht => rel_writtenTerm q ht)

end RuleText

/-! ## Rules and queries -/

theorem Registry.offersAmong_freshNames {r : Registry} {constants : List Constant}
    (h : ∀ c ∈ constants, r.Offers c) :
    ∀ c ∈ constants, r.OffersAmong (freshNames constants) c := by
  refine fun c hc => ⟨h c hc, ?_⟩
  rintro name rfl
  exact List.mem_eraseDups.2 (List.mem_filterMap.2 ⟨_, hc, rfl⟩)

theorem Registry.Interns.becomes {r r' : Registry} {names : List String} {q : String → EntityId}
    (h : r.Interns r' names q) {c : Constant} (hc : r.OffersAmong names c) :
    r.Becomes r' c (c.standIn q) := by
  refine ⟨hc.1, ?_⟩
  cases c with
  | known id => rfl
  | fresh name => exact h.individual name (hc.2 name rfl)

theorem Registry.StandsIn.map_inj {r : Registry} {names : List String} {p : String → EntityId}
    (hp : r.StandsIn names p) {atoms : List (Atom Constant)}
    (hatoms : ∀ a ∈ atoms, ∀ c ∈ a.constants, r.OffersAmong names c) :
    ∀ a ∈ atoms, ∀ b ∈ atoms,
      a.map (Constant.standIn p) = b.map (Constant.standIn p) → a = b :=
  fun a ha b hb => Atom.map_inj hp.standIn_inj (hatoms a ha) (hatoms b hb)

theorem Rule.map_exchange {r : Registry} {names : List String} {p q : String → EntityId}
    (hp : r.StandsIn names p) {draft : Rule Constant}
    (hoffers : ∀ c ∈ draft.constants, r.OffersAmong names c) :
    (draft.map (Constant.standIn p)).map (exchange names p q) = draft.map (Constant.standIn q) := by
  have heach : ∀ c ∈ draft.constants, exchange names p q (c.standIn p) = c.standIn q :=
    fun c hc => hp.exchange_standIn (hoffers c hc)
  rw [constants, List.flatMap_append, List.forall_mem_append] at heach
  rw [map, map, map, map_map_eq_of_constants heach.1, map_map_eq_of_constants heach.2]

theorem Query.map_exchange {r : Registry} {names : List String} {p q : String → EntityId}
    (hp : r.StandsIn names p) {draft : Query Constant}
    (hoffers : ∀ c ∈ draft.constants, r.OffersAmong names c) :
    (draft.map (Constant.standIn p)).map (exchange names p q) = draft.map (Constant.standIn q) := by
  have heach : ∀ c ∈ draft.constants, exchange names p q (c.standIn p) = c.standIn q :=
    fun c hc => hp.exchange_standIn (hoffers c hc)
  rw [map, map, map, map_map_eq_of_constants heach]

namespace RuleText

variable {r : Registry} {name text : String} {p : String → EntityId}

/-- A rule that is accepted is accepted with any stand-ins. -/
theorem readRuleWith_of_readRule {draft : Rule Constant}
    (h : readRule r (checked r) name text = .ok draft)
    (hp : r.StandsIn (freshNames draft.constants) p) :
    readRuleWith p r name text = .ok (draft.map (Constant.standIn p)) := by
  have hoffers := Registry.offersAmong_freshNames (offers_of_readRule h)
  obtain ⟨bodyText, headText, body, head, hsides, hbody, hhead, hparts⟩ := exists_of_readRule h
  have hinj := hp.map_inj fun a ha c hc => hoffers c (Rule.constants_of_ofParts hparts a ha c hc)
  have hwith := Rule.ofParts_map hinj name body
  rw [hparts] at hwith
  rw [readRuleWith, hsides]
  simp only [Except.mapError, bind, Except.bind, hbody, hhead, hwith]
  rfl

theorem readQueryWith_of_readQuery {draft : Query Constant}
    (h : readQuery r (checked r) name text = .ok draft) (p : String → EntityId) :
    readQueryWith p r name text = .ok (draft.map (Constant.standIn p)) := by
  obtain ⟨bodyText, headText, body, distinct, projection, hsides, hbody, hselection, hparts⟩ :=
    exists_of_readQuery h
  have hwith := Query.ofParts_map (Constant.standIn p) name body projection distinct
  rw [hparts] at hwith
  rw [readQueryWith, hsides]
  simp only [Except.mapError, bind, Except.bind, hbody, hselection, hwith]
  rfl

end RuleText

/-! ## What becomes of the constants of an accepted text -/

/-- What an accepted rule text gives, where `q` are the identifiers of its new names. -/
structure Rule.Reads (r r' : Registry) (names : List String) (q : String → EntityId)
    (name text : String) (rule : Rule EntityId) : Prop where
  /-- The atoms have the arguments that the text writes; an atom that the head repeats is kept
      once. -/
  written : ∃ bodyText headText head, RuleText.sides text = .ok (bodyText, headText) ∧
    RuleText.SideWrites r q text bodyText rule.body ∧
    RuleText.SideWrites r q text headText head ∧ rule.head = head.eraseDups
  plan_perm : rule.plan.Perm rule.body
  /-- No constant is an identifier that nobody has. -/
  individuals : ∀ id ∈ rule.constants, r'.IsIndividual id
  ofParts : Rule.ofParts name rule.body rule.head = .ok rule
  nodup : rule.head.Nodup
  /-- Stand-ins can be exchanged after all checks and after planning. -/
  standIns : ∀ p, r.StandsIn names p → ∃ draft, RuleText.readRuleWith p r name text = .ok draft ∧
    draft.map (exchange names p q) = rule ∧
    draft.plan.map (Atom.map (exchange names p q)) = rule.plan

/-- What an accepted query text gives, where `q` are the identifiers of its new names. -/
structure Query.Reads (r r' : Registry) (names : List String) (q : String → EntityId)
    (name text : String) (query : Query EntityId) : Prop where
  written : ∃ bodyText headText, RuleText.sides text = .ok (bodyText, headText) ∧
    RuleText.SideWrites r q text bodyText query.body ∧
    RuleText.selection text headText = .ok (query.distinct, query.projection)
  plan_perm : query.plan.Perm query.body
  individuals : ∀ id ∈ query.constants, r'.IsIndividual id
  ofParts : Query.ofParts name query.body query.projection query.distinct = .ok query
  standIns : ∀ p, r.StandsIn names p → ∃ draft, RuleText.readQueryWith p r name text = .ok draft ∧
    draft.map (exchange names p q) = query ∧
    draft.plan.map (Atom.map (exchange names p q)) = query.plan

section Parse

variable {r r' : Registry} (hr : r.WellFormed) {name text : String}

include hr

theorem Registry.exists_interns_freshNames {constants : List Constant} (hext : r.Extends r')
    (hoffers : ∀ c ∈ constants, r.Offers c) (hdenotes : ∀ c ∈ constants, ∃ id, r'.Denotes c id) :
    ∃ q, r.Interns r' (freshNames constants) q := by
  have hmem : ∀ name ∈ freshNames constants, .fresh name ∈ constants := by
    intro name hname
    obtain ⟨c, hc, hfresh⟩ := List.mem_filterMap.1 (List.mem_eraseDups.1 hname)
    cases c with
    | known id => cases hfresh
    | fresh _ =>
      cases hfresh
      exact hc
  exact exists_interns hr hext (fun name hname => hoffers _ (hmem name hname))
    fun name hname => hdenotes _ (hmem name hname)

theorem Rule.reads_of_parse {rule : Rule EntityId}
    (h : Rule.parse r name text = (.ok rule, r')) :
    ∃ written q, RuleText.ruleConstants text = .ok written ∧
      r.Interns r' (r.newNames written) q ∧
      r.StandsIn (r.newNames written) (lastStandIns (r.newNames written)) ∧
      rule.Reads r r' (r.newNames written) q name text := by
  obtain ⟨hr', hname, hvalid, -, -, hproper'⟩ := Rule.of_parse hr h
  obtain ⟨draft, hread, hroom, hrun⟩ :=
    (commit_eq_ok_iff (RuleText.follows_readRule hr.indexed name text)).1 h
  obtain ⟨-, hext, hrel⟩ := Registry.settles_intern.rule.run hr hrun
  have hoffers := RuleText.offers_of_readRule hread
  have hamong := Registry.offersAmong_freshNames hoffers
  obtain ⟨q, hq⟩ := Registry.exists_interns_freshNames hr hext hoffers
    (exists_of_mem_constants (List.rel_append hrel.body hrel.head))
  -- the finished rule is the draft with the identifiers that the names were given
  have hrule : rule = draft.map (Constant.standIn q) := by
    obtain ⟨-, -, -, -, hproper⟩ := RuleText.of_readRule hread
    rw [List.forall_mem_append] at hproper
    have hbecomes : draft.Rel (r.Becomes r') rule :=
      ⟨hrel.name_eq, forall₂_becomes hrel.body hproper.1, forall₂_becomes hrel.head hproper.2⟩
    exact hbecomes.eq_map (Registry.biUnique_becomes hr hr' hext) fun c hc =>
      hq.becomes (hamong c hc)
  obtain ⟨written, hwritten, hnames⟩ := RuleText.freshNames_of_readRule hread
  refine ⟨written, q, hwritten, ?_⟩
  rw [← hnames]
  refine ⟨hq, hr.standsIn_last hroom, ?_⟩
  obtain ⟨bodyText, headText, body, head, hsides, hbody, hhead, hparts⟩ :=
    RuleText.exists_of_readRule hread
  have hinj := hq.standsIn.map_inj fun a ha c hc =>
    hamong c (Rule.constants_of_ofParts hparts a ha c hc)
  have hdraft : draft = ⟨name, body, head.eraseDups⟩ := (Rule.ofParts_eq_ok_iff.1 hparts).2.2
  refine ⟨⟨bodyText, headText, head.map (Atom.map (Constant.standIn q)), hsides, ?_,
    RuleText.sideWrites_of_conjunction q hhead, ?_⟩, plan_perm rule.body,
    constants_of_proper hproper', hname ▸ hvalid.ofParts, hvalid.nodup, fun p hp => ?_⟩
  · rw [hrule, hdraft]
    exact RuleText.sideWrites_of_conjunction q hbody
  · rw [hrule, hdraft, eraseDups_map_of_inj hinj]
    rfl
  · refine ⟨_, RuleText.readRuleWith_of_readRule hread hp, ?_⟩
    have hexchange := Rule.map_exchange (q := q) hp hamong
    rw [← hrule] at hexchange
    refine ⟨hexchange, ?_⟩
    rw [Rule.plan, ← plan_map, ← hexchange]
    rfl

theorem Query.reads_of_parse {query : Query EntityId}
    (h : Query.parse r name text = (.ok query, r')) :
    ∃ written q, RuleText.queryConstants text = .ok written ∧
      r.Interns r' (r.newNames written) q ∧
      r.StandsIn (r.newNames written) (lastStandIns (r.newNames written)) ∧
      query.Reads r r' (r.newNames written) q name text := by
  obtain ⟨hr', hname, hvalid, -, hproper', -⟩ := Query.of_parse hr h
  obtain ⟨draft, hread, hroom, hrun⟩ :=
    (commit_eq_ok_iff (RuleText.follows_readQuery hr.indexed name text)).1 h
  obtain ⟨-, hext, hrel⟩ := Registry.settles_intern.query.run hr hrun
  have hoffers := RuleText.offers_of_readQuery hread
  have hamong := Registry.offersAmong_freshNames hoffers
  obtain ⟨q, hq⟩ := Registry.exists_interns_freshNames hr hext hoffers
    (exists_of_mem_constants hrel.body)
  have hquery : query = draft.map (Constant.standIn q) := by
    obtain ⟨-, -, -, hproper, -⟩ := RuleText.of_readQuery hread
    have hbecomes : draft.Rel (r.Becomes r') query :=
      ⟨hrel.name_eq, hrel.projection_eq, hrel.distinct_eq, forall₂_becomes hrel.body hproper⟩
    exact hbecomes.eq_map (Registry.biUnique_becomes hr hr' hext) fun c hc =>
      hq.becomes (hamong c hc)
  obtain ⟨written, hwritten, hnames⟩ := RuleText.freshNames_of_readQuery hread
  refine ⟨written, q, hwritten, ?_⟩
  rw [← hnames]
  refine ⟨hq, hr.standsIn_last hroom, ?_⟩
  obtain ⟨bodyText, headText, body, distinct, projection, hsides, hbody, hselection, hparts⟩ :=
    RuleText.exists_of_readQuery hread
  have hdraft : draft = ⟨name, body, projection, distinct⟩ :=
    (Query.ofParts_eq_ok_iff.1 hparts).2.2
  refine ⟨⟨bodyText, headText, hsides, ?_, ?_⟩, plan_perm query.body,
    constants_of_proper hproper', hname ▸ hvalid, fun p hp => ?_⟩
  · rw [hquery, hdraft]
    exact RuleText.sideWrites_of_conjunction q hbody
  · rw [hquery, hdraft, hselection]
    rfl
  · refine ⟨_, RuleText.readQueryWith_of_readQuery hread p, ?_⟩
    have hexchange := Query.map_exchange (q := q) hp hamong
    rw [← hquery] at hexchange
    refine ⟨hexchange, ?_⟩
    rw [Query.plan, ← plan_map, ← hexchange]
    rfl

end Parse

/-- **Constants are settled.** In an accepted rule or query, each constant of the text is the entity
    that its name meant before, and otherwise the new individual of that name. The rule passes the
    checks as it stands, with nothing to drop from its head. It is also what reading with stand-ins
    gives, whichever they are, once each of them is exchanged in body, head and plan for the
    individual of its name; the last identifiers can always stand in. -/
theorem parse_constants {r : Registry} (hbuilt : r.Built) (name text : String) :
    (∀ rule r', Rule.parse r name text = (.ok rule, r') →
      ∃ written q, RuleText.ruleConstants text = .ok written ∧
        r.Interns r' (r.newNames written) q ∧
        r.StandsIn (r.newNames written) (lastStandIns (r.newNames written)) ∧
        rule.Reads r r' (r.newNames written) q name text) ∧
    ∀ query r', Query.parse r name text = (.ok query, r') →
      ∃ written q, RuleText.queryConstants text = .ok written ∧
        r.Interns r' (r.newNames written) q ∧
        r.StandsIn (r.newNames written) (lastStandIns (r.newNames written)) ∧
        query.Reads r r' (r.newNames written) q name text :=
  ⟨fun _ _ => Rule.reads_of_parse hbuilt.wellFormed,
    fun _ _ => Query.reads_of_parse hbuilt.wellFormed⟩

/-- Two new names, one of them written twice, become two individuals in the order of the text; the
    same in a query with one new name. -/
theorem parse_constants_places :
    Places.registry.Built ∧
      (∃ rule r', Rule.parse Places.registry "r" Places.twice = (.ok rule, r') ∧
        ∃ q, Places.registry.Interns r' ["Lyon", "Paris"] q ∧
          rule.Reads Places.registry r' ["Lyon", "Paris"] q "r" Places.twice) ∧
      ∃ query r', Query.parse Places.registry "q" "locatedIn(?x, Lyon) -> sqwrl:select(?x)" =
          (.ok query, r') ∧
        ∃ q, Places.registry.Interns r' ["Lyon"] q ∧
          query.Reads Places.registry r' ["Lyon"] q "q"
            "locatedIn(?x, Lyon) -> sqwrl:select(?x)" := by
  have hbuilt := Places.built_registry.1
  refine ⟨hbuilt, ?_, ?_⟩
  · obtain ⟨rule, r', hparse⟩ := Places.parse_twice
    obtain ⟨written, q, hwritten, hinterns, -, hreads⟩ :=
      (parse_constants hbuilt "r" Places.twice).1 rule r' hparse
    have hnames : RuleText.ruleConstants Places.twice = .ok ["Lyon", "Paris", "Lyon"] := by
      decide +kernel
    obtain rfl := Except.ok.inj (hnames.symm.trans hwritten)
    rw [Places.newNames_cities.1] at hinterns hreads
    exact ⟨rule, r', hparse, q, hinterns, hreads⟩
  · have hparse := @Places.parse_query "Lyon" Places.isNew_lyon "Lyon"
      (by decide) rfl (by decide)
      "locatedIn(?x, Lyon) -> sqwrl:select(?x)" rfl
    obtain ⟨written, q, hwritten, hinterns, -, hreads⟩ :=
      (parse_constants hbuilt "q" "locatedIn(?x, Lyon) -> sqwrl:select(?x)").2 _ _ hparse
    have hnames : RuleText.queryConstants "locatedIn(?x, Lyon) -> sqwrl:select(?x)" =
        .ok ["Lyon"] := by
      decide +kernel
    obtain rfl := Except.ok.inj (hnames.symm.trans hwritten)
    rw [Places.newNames_cities.2] at hinterns hreads
    exact ⟨_, _, hparse, q, hinterns, hreads⟩

end HornOntology
