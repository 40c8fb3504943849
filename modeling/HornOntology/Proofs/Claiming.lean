import HornOntology.Proofs.Constants

set_option autoImplicit false

/-! # What reading a text claims

While a text is read, each new name claims an identifier that nobody has, from the last one down,
and reading fails at the name for which there is none. So two things happen at once. They can be
taken apart: reading is reading without any claims, after claiming for the constants that were met
until it ended (`Follows`), and the claims succeed exactly if there are enough identifiers for the
new names among these (`run_forM_claim`).

What a name means is decided by `checked`, which looks at the kind of a registered entity; to intern
its name once more comes to the same and leaves the registry as it is (`meaning_eq_checked`). -/

namespace HornOntology

namespace RuleText

variable {r : Registry}

/-! ## What a name means -/

/-- What the name of a constant means, by the kind of the entity with that name. -/
def checked (registry : Registry) (name : String) : Except Error Constant :=
  match registry.resolve name with
  | .ok id =>
    match registry.kind? id with
    | some .individual => .ok (.known id)
    | some kind => .error (.registry (.kindConflict (registry.name id) kind .individual))
    | none => .error (.registry (.notFound id.display))
  | .error (.notFound _) => .ok (.fresh name)
  | .error e => .error (.registry e)

/-- To intern a registered name once more only checks its kind. -/
theorem meaning_eq_checked (hr : r.Indexed) : meaning r = checked r := by
  funext name
  rw [meaning, checked]
  cases hname : r.resolve name with
  | error e => cases e <;> rfl
  | ok id =>
    obtain ⟨e, he⟩ := hr.exists_of_resolve hname
    have hkind : r.kind? id = some e.kind := by rw [Registry.kind?, he, Option.map_some]
    dsimp only
    rw [hr.intern_name he, hkind, Registry.name_eq he]
    cases e.kind <;> rfl

/-- The name of an entity is taken if that is an individual. -/
theorem exists_checked_of_resolve (hr : r.Indexed) {name : String} {id : EntityId}
    (h : r.resolve name = .ok id) :
    ∃ kind, r.kind? id = some kind ∧
      checked r name = if kind = .individual then .ok (.known id)
        else .error (.registry (.kindConflict (r.name id) kind .individual)) := by
  obtain ⟨e, he⟩ := hr.exists_of_resolve h
  have hkind : r.kind? id = some e.kind := by rw [Registry.kind?, he, Option.map_some]
  refine ⟨e.kind, hkind, ?_⟩
  simp only [checked, h, hkind]
  cases e.kind <;> rfl

/-! ## Claims -/

/-- An identifier that nobody has is found as long as there is one. -/
theorem placeholder_cases {n : Nat} (hn : n < 2 ^ 32) :
    (∃ id k, placeholder r n = some (id, k) ∧ r.all.length < n ∧ id.toNat = n ∧ n = k + 1) ∨
      placeholder r n = none ∧ n ≤ r.all.length := by
  induction n with
  | zero => exact .inr ⟨rfl, Nat.zero_le _⟩
  | succ n ih =>
    have hword : (UInt32.ofNat (n + 1)).toNat = n + 1 := UInt32.toNat_ofNat_of_lt' hn
    have hne : UInt32.ofNat (n + 1) ≠ 0 := by
      intro hzero
      rw [hzero, UInt32.toNat_zero] at hword
      omega
    let id : EntityId := ⟨UInt32.ofNat (n + 1), hne⟩
    have hid : id.toNat = n + 1 := hword
    have hraw : EntityId.ofRaw? (UInt32.ofNat (n + 1)) = some id := dif_pos hne
    rw [placeholder, hraw]
    dsimp only
    by_cases hunused : r.all.length < n + 1
    · have hget : r.get? id = none := Registry.get?_eq_none_iff.2 (hid ▸ hunused)
      rw [if_pos (by rw [hget]; rfl)]
      exact .inl ⟨id, n, rfl, hunused, hid, rfl⟩
    · have hget : r.get? id ≠ none := by
        rwa [ne_eq, Registry.get?_eq_none_iff, hid]
      rw [if_neg (by simpa using hget)]
      rcases ih (Nat.lt_of_succ_lt hn) with ⟨_, _, -, hlt, -⟩ | ⟨hnone, -⟩
      · omega
      · exact .inr ⟨hnone, by omega⟩

/-- The names have claimed the last identifiers, one after the other, and nobody has these. -/
structure Claims (r : Registry) (names : List String) (met : Constants) : Prop where
  names_eq : met.fresh.map Prod.fst = names
  ids_eq : met.fresh.map (fun claim => claim.2.toNat) =
    (List.range names.length).map fun i => 2 ^ 32 - 1 - i
  next_eq : met.next = 2 ^ 32 - 1 - names.length
  room : names.length ≤ r.unused

theorem claims_start (r : Registry) : Claims r [] .start := ⟨rfl, rfl, rfl, Nat.zero_le _⟩

theorem claim_of_lookup {met : Constants} {name : String} {id : EntityId}
    (h : met.fresh.lookup name = some id) :
    (claim r (.fresh name)).run met = .ok ((), met) := by
  simp only [claim, StateT.run, h]

theorem claim_of_placeholder {met : Constants} {name : String} {id : EntityId} {next : Nat}
    (h : met.fresh.lookup name = none) (hid : placeholder r met.next = some (id, next)) :
    (claim r (.fresh name)).run met = .ok ((), ⟨met.fresh ++ [(name, id)], next⟩) := by
  simp only [claim, StateT.run, h, hid]

theorem claim_of_exhausted {met : Constants} {name : String}
    (h : met.fresh.lookup name = none) (hnone : placeholder r met.next = none) :
    (claim r (.fresh name)).run met = .error (.registry .exhausted) := by
  simp only [claim, StateT.run, h, hnone]

/-- A new name claims the next identifier, if it has not claimed one before and if there is one. -/
theorem Claims.claim_fresh {names : List String} {met : Constants} (h : Claims r names met)
    (name : String) :
    if name ∈ names then (claim r (.fresh name)).run met = .ok ((), met)
    else if names.length < r.unused then
      ∃ met', (claim r (.fresh name)).run met = .ok ((), met') ∧ Claims r (names ++ [name]) met'
    else (claim r (.fresh name)).run met = .error (.registry .exhausted) := by
  have hlookup : met.fresh.lookup name = none ↔ name ∉ names := by
    rw [← h.names_eq, List.lookup_eq_none_iff, List.mem_map]
    grind
  split
  · next hmem =>
    cases hfound : met.fresh.lookup name with
    | none => exact absurd hmem (hlookup.1 hfound)
    | some id => exact claim_of_lookup hfound
  · next hnew =>
    have hnext := h.next_eq
    have hroom := h.room
    rw [Registry.unused] at hroom ⊢
    rcases placeholder_cases (r := r) (n := met.next) (by omega) with
      ⟨id, k, hid, hlt, htoNat, hk⟩ | ⟨hnone, hge⟩
    · rw [if_pos (by omega)]
      refine ⟨_, claim_of_placeholder (hlookup.2 hnew) hid, ?_, ?_, ?_, ?_⟩
      · rw [List.map_append, h.names_eq]
        rfl
      · rw [List.map_append, h.ids_eq, List.length_append, List.length_singleton,
          List.range_succ, List.map_append]
        simp only [List.map_cons, List.map_nil, htoNat, hnext]
      · change k = _
        rw [List.length_append, List.length_singleton]
        omega
      · rw [List.length_append, List.length_singleton, Registry.unused]
        omega
    · rw [if_neg (by omega)]
      exact claim_of_exhausted (hlookup.2 hnew) hnone

/-- Claiming for constants succeeds if there are identifiers for all new names. -/
theorem run_forM_claim (constants : List Constant) {names : List String} {met : Constants}
    (h : Claims r names.eraseDups met) :
    match (forM constants (claim r) : Reading Unit).run met with
    | .ok (_, met') => Claims r (names ++ constants.filterMap Constant.fresh?).eraseDups met'
    | .error e => e = .registry .exhausted ∧
        r.unused < (names ++ constants.filterMap Constant.fresh?).eraseDups.length := by
  induction constants generalizing names met with
  | nil =>
    rw [List.filterMap_nil, List.append_nil]
    exact h
  | cons c constants ih =>
    cases c with
    | known id => exact ih h
    | fresh name =>
      have hrun : (forM (.fresh name :: constants) (claim r) : Reading Unit).run met =
          (claim r (.fresh name)).run met >>= fun step =>
            (forM constants (claim r) : Reading Unit).run step.2 := rfl
      have hnames : names ++ (.fresh name :: constants).filterMap Constant.fresh? =
          names ++ name :: constants.filterMap Constant.fresh? := rfl
      have hclaim := h.claim_fresh name
      simp only [List.mem_eraseDups] at hclaim
      rw [hrun, hnames]
      by_cases hmem : name ∈ names
      · rw [if_pos hmem] at hclaim
        rw [hclaim, eraseDups_append_cons_of_mem hmem]
        exact ih h
      · have hlength := eraseDups_concat_of_not_mem hmem
        rw [if_neg hmem] at hclaim
        rw [List.append_cons]
        split at hclaim
        · next hroom =>
          obtain ⟨met', hstep, hclaims⟩ := hclaim
          rw [hstep]
          rw [← hlength] at hclaims
          exact ih hclaims
        · next hroom =>
          rw [hclaim]
          refine ⟨rfl, ?_⟩
          rw [List.eraseDups_append, hlength, List.length_append, List.length_append,
            List.length_singleton]
          omega

/-! ## Reading with and without claims -/

/-- Reading claims identifiers for constants that it meets, and is then what it would be without
    any claims. If it is successful, the constants it has met are as `C` says. -/
def Follows {α : Type} (r : Registry) (C : List Constant → α → Prop) (plain : Except Error α)
    (reading : Reading α) : Prop :=
  ∃ constants, reading = (do forM constants (claim r); ofExcept plain) ∧
    ∀ a, plain = .ok a → C constants a

section Follows

variable {α β : Type} {C : List Constant → α → Prop} {D : List Constant → β → Prop}

theorem follows_ofExcept (x : Except Error α) (h : ∀ a, x = .ok a → C [] a) :
    Follows r C (ofExcept x) (ofExcept x) := by
  refine ⟨[], ?_, ?_⟩
  · cases x <;> rfl
  · intro a ha
    cases x with
    | error e => cases ha
    | ok b => exact h a ha

theorem follows_pure {a : α} (h : C [] a) : Follows r C (pure a) (pure a) :=
  ⟨[], rfl, fun _ ha => Except.ok.inj ha ▸ h⟩

theorem follows_throw (e : Error) : Follows r C (throw e) (throw e) :=
  ⟨[], rfl, fun _ ha => by cases ha⟩

theorem Follows.eq_of_ok {K : α → List Constant} {reading : Reading α} {a : α}
    (h : Follows r (fun constants b => constants = K b) (.ok a) reading) :
    reading = (do forM (K a) (claim r); return a) := by
  obtain ⟨constants, rfl, hconstants⟩ := h
  rw [hconstants a rfl]
  rfl

theorem Follows.bind {plain : Except Error α} {reading : Reading α} {f : α → Except Error β}
    {g : α → Reading β} (h : Follows r C plain reading)
    (hf : ∀ constants a, C constants a →
      Follows r (fun more b => D (constants ++ more) b) (f a) (g a)) :
    Follows r D (plain >>= f) (reading >>= g) := by
  obtain ⟨constants, rfl, hC⟩ := h
  cases plain with
  | error e =>
    refine ⟨constants, ?_, fun _ hb => by cases hb⟩
    rw [bind_assoc]
    rfl
  | ok a =>
    obtain ⟨more, hg, hD⟩ := hf constants a (hC a rfl)
    refine ⟨constants ++ more, ?_, hD⟩
    rw [List.forM_append, bind_assoc, bind_assoc]
    refine congrArg _ (funext fun _ => ?_)
    exact (pure_bind a g).trans hg

/-- Reading a list one by one meets the constants of all that is read. -/
theorem follows_mapM {K : β → List Constant} {f : α → Except Error β} {g : α → Reading β}
    (h : ∀ a, Follows r (fun constants b => constants = K b) (f a) (g a)) (l : List α) :
    Follows r (fun constants bs => constants = bs.flatMap K) (l.mapM f) (l.mapM g) := by
  induction l with
  | nil => exact follows_pure rfl
  | cons a l ih =>
    rw [List.mapM_cons, List.mapM_cons]
    refine (h a).bind fun constants b hb => ih.bind fun more bs hbs => follows_pure ?_
    rw [hb, hbs, List.append_nil, List.flatMap_cons]

end Follows

section Reading

variable (hr : r.Indexed)

include hr

theorem follows_constant (name : String) :
    Follows r (fun constants c => constants = [c]) (checked r name) (constant r name) := by
  rw [constant, meaning_eq_checked hr]
  cases hname : checked r name with
  | error e => exact ⟨[], rfl, fun _ hc => by cases hc⟩
  | ok c =>
    refine ⟨[c], ?_, fun _ hc => by rw [Except.ok.inj hc]⟩
    simp [ofExcept]

theorem follows_term (arg : List Char) :
    Follows r (fun constants t => constants = t.const?.toList) (term (checked r) arg)
      (term (constant r) arg) := by
  unfold term
  split
  · exact follows_pure rfl
  · refine (follows_constant hr _).bind fun constants c hc => follows_pure ?_
    rw [hc]
    rfl

theorem follows_relationalAtom (name : String) (args : List (List Char)) :
    Follows r (fun constants a => constants = a.constants) (relationalAtom r (checked r) name args)
      (relationalAtom r (constant r) name args) := by
  unfold relationalAtom
  split
  · exact follows_throw _
  · exact follows_throw _
  · split
    · exact follows_throw _
    · exact follows_throw _
    · refine (follows_term hr _).bind fun constants t ht => follows_pure ?_
      rw [ht, List.append_nil, Atom.constants_eq_flatMap]
      simp [Atom.terms]
    · exact follows_throw _
    · refine (follows_term hr _).bind fun constants s hs =>
        (follows_term hr _).bind fun more o ho => follows_pure ?_
      rw [hs, ho, List.append_nil, Atom.constants_eq_flatMap]
      simp [Atom.terms]
    · exact follows_throw _

theorem follows_builtinAtom (name : String) (args : List (List Char)) :
    Follows r (fun constants a => constants = a.constants) (builtinAtom (checked r) name args)
      (builtinAtom (constant r) name args) := by
  unfold builtinAtom
  split
  · exact follows_throw _
  · refine (follows_mapM (follows_term hr) args).bind fun constants ts hts => follows_pure ?_
    rw [hts, List.append_nil, Atom.constants_eq_flatMap]
    rfl

theorem follows_atom (input : String) (text : List Char) :
    Follows r (fun constants a => constants = a.constants) (atom r (checked r) input text)
      (atom r (constant r) input text) := by
  unfold atom
  split
  · exact follows_throw _
  · refine (follows_ofExcept (C := fun constants _ => constants = []) _ fun _ _ => rfl).bind ?_
    rintro constants ⟨name, args⟩ rfl
    dsimp only
    split
    · exact follows_builtinAtom hr _ args
    · exact follows_relationalAtom hr _ args

theorem follows_conjunction (input : String) (side : List Char) :
    Follows r (fun constants atoms => constants = atoms.flatMap Atom.constants)
      (conjunction r (checked r) input side) (conjunction r (constant r) input side) := by
  refine (follows_ofExcept (C := fun constants _ => constants = []) _ fun _ _ => rfl).bind ?_
  rintro constants parts rfl
  exact follows_mapM (fun part => follows_atom hr input (Text.trim part)) parts

/-- A rule is read after claiming identifiers for its new names. -/
theorem follows_readRule (name text : String) :
    Follows r (fun constants draft => freshNames constants = freshNames draft.constants)
      (readRule r (checked r) name text) (readRule r (constant r) name text) := by
  refine (follows_ofExcept (C := fun constants _ => constants = []) _ fun _ _ => rfl).bind ?_
  rintro constants ⟨bodyText, headText⟩ rfl
  refine (follows_conjunction hr text bodyText).bind fun bodyConstants body hbody =>
    (follows_conjunction hr text headText).bind fun headConstants head hhead => ?_
  refine follows_ofExcept _ fun draft hdraft => ?_
  obtain ⟨-, -, rfl⟩ := Rule.ofParts_eq_ok_iff.1 (eq_ok_of_mapError hdraft)
  simp only [hbody, hhead, freshNames, Rule.constants, List.nil_append, List.append_nil,
    List.flatMap_append, List.filterMap_append, List.filterMap_flatMap]
  exact (eraseDups_append_flatMap_eraseDups _ _ head).symm

/-- A query is read after claiming identifiers for its new names. -/
theorem follows_readQuery (name text : String) :
    Follows r (fun constants draft => freshNames constants = freshNames draft.constants)
      (readQuery r (checked r) name text) (readQuery r (constant r) name text) := by
  refine (follows_ofExcept (C := fun constants _ => constants = []) _ fun _ _ => rfl).bind ?_
  rintro constants ⟨bodyText, headText⟩ rfl
  refine (follows_conjunction hr text bodyText).bind fun bodyConstants body hbody => ?_
  refine (follows_ofExcept (C := fun constants _ => constants = []) _ fun _ _ => rfl).bind ?_
  rintro constants ⟨distinct, projection⟩ rfl
  refine follows_ofExcept _ fun draft hdraft => ?_
  obtain ⟨-, -, rfl⟩ := Query.ofParts_eq_ok_iff.1 (eq_ok_of_mapError hdraft)
  rw [hbody, List.nil_append, List.append_nil, List.append_nil]
  rfl

end Reading

/-- What comes of reading a text from its beginning: what comes of it without any claims, unless
    there are not enough identifiers. -/
theorem Follows.run_start {α : Type} {constants : α → List Constant} {plain : Except Error α}
    {reading : Reading α}
    (h : Follows r (fun met draft => freshNames met = freshNames (constants draft)) plain reading) :
    match plain with
    | .error e => reading.run .start = .error e ∨
        reading.run .start = .error (.registry .exhausted)
    | .ok draft =>
      if (freshNames (constants draft)).length ≤ r.unused then
        ∃ met, reading.run .start = .ok (draft, met) ∧
          Claims r (freshNames (constants draft)) met
      else reading.run .start = .error (.registry .exhausted) := by
  obtain ⟨cs, rfl, hconstants⟩ := h
  have hclaims := @run_forM_claim r cs [] _ (claims_start r)
  rw [List.nil_append] at hclaims
  rw [StateT.run_bind]
  cases hrun : (forM cs (claim r) : Reading Unit).run .start with
  | error e =>
    rw [hrun] at hclaims
    obtain ⟨rfl, hfull⟩ := hclaims
    cases plain with
    | error e => exact .inr rfl
    | ok draft =>
      dsimp only
      rw [← hconstants draft rfl, freshNames, if_neg (Nat.not_le_of_lt hfull)]
      rfl
  | ok step =>
    rw [hrun] at hclaims
    cases plain with
    | error e => exact .inl rfl
    | ok draft =>
      dsimp only
      rw [← hconstants draft rfl, freshNames, if_pos hclaims.room]
      exact ⟨step.2, rfl, hclaims⟩

end RuleText

/-! ## The second step of reading -/

section Commit

variable {α β : Type} {constants : α → List Constant} {intern : α → RegistryM β} {r r' : Registry}
  {plain : Except Error α} {reading : RuleText.Reading α}
  (h : RuleText.Follows r (fun met draft => freshNames met = freshNames (constants draft)) plain
    reading)

include h

/-- The second step runs if the text is well made and there are identifiers for its new names, and
    otherwise nothing happens. -/
theorem commit_cases (intern : α → RegistryM β) :
    (∃ draft, plain = .ok draft ∧ (freshNames (constants draft)).length ≤ r.unused ∧
      commit intern r reading =
        (((intern draft).run r).1.mapError .registry, ((intern draft).run r).2)) ∨
    ∃ e, commit intern r reading = (.error e, r) ∧
      ∀ draft, plain = .ok draft →
        r.unused < (freshNames (constants draft)).length ∧ e = .registry .exhausted := by
  have hrun := h.run_start
  unfold commit
  cases plain with
  | error e =>
    rcases hrun with hrun | hrun
    · exact .inr ⟨_, by rw [hrun], fun _ hdraft => by cases hdraft⟩
    · exact .inr ⟨_, by rw [hrun], fun _ hdraft => by cases hdraft⟩
  | ok draft =>
    dsimp only at hrun
    split at hrun
    · next hroom =>
      obtain ⟨met, hrun, -⟩ := hrun
      exact .inl ⟨draft, rfl, hroom, by rw [hrun]; rfl⟩
    · next hfull =>
      refine .inr ⟨_, by rw [hrun], fun _ hdraft => ?_⟩
      cases hdraft
      exact ⟨Nat.lt_of_not_le hfull, rfl⟩

theorem commit_eq_ok_iff {b : β} :
    commit intern r reading = (.ok b, r') ↔
      ∃ draft, plain = .ok draft ∧ (freshNames (constants draft)).length ≤ r.unused ∧
        (intern draft).run r = (.ok b, r') := by
  rcases commit_cases h intern with ⟨draft, rfl, hroom, hcommit⟩ | ⟨e, hcommit, hfull⟩
  · rw [hcommit]
    constructor
    · intro hok
      obtain ⟨hresult, hregistry⟩ := Prod.mk.inj hok
      exact ⟨draft, rfl, hroom, Prod.ext (eq_ok_of_mapError hresult) hregistry⟩
    · rintro ⟨_, hdraft, -, hrun⟩
      cases hdraft
      rw [hrun]
      rfl
  · rw [hcommit]
    refine iff_of_false (fun hok => by cases hok) ?_
    rintro ⟨draft, hdraft, hroom, -⟩
    exact absurd hroom (Nat.not_le_of_lt (hfull draft hdraft).1)

end Commit

end HornOntology
