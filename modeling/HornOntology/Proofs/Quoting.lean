import HornOntology.Proofs.Exhaustion
import HornOntology.Proofs.PlainNames
import HornOntology.Proofs.Registration
import Mathlib.Data.Bool.AllAny

set_option autoImplicit false

/-! # Quoted literals

Between double quotes everything stands for itself: parentheses, separators, blanks, hash signs and
question marks. The reader goes over a text four times, for the arrow, the carets, the first
parenthesis and the commas, and each time it passes over what is quoted (`walk_quoted`). So a
literal is one argument whatever it holds (`isArgument_literal`), it is read as the constant with
exactly that content (`term_literal`), and what becomes of a text with a literal depends on what
the content means in the registry (`parse_literal_by_resolve`). If it means nothing, it becomes an
individual, unless there is no identifier left for it (`parse_literal_exhausted`). -/

namespace HornOntology

/-! ## The text of a literal -/

/-- A text in quotes, with what follows the quotes. -/
def literalText (content suffix : String) : String := "\"" ++ content ++ "\"" ++ suffix

theorem toList_literalText (content suffix : String) :
    (literalText content suffix).toList =
      '"' :: (content.toList ++ '"' :: suffix.toList) := by
  simp [literalText]

/-- What may follow the quotes: nothing, or two carets and the name of a type. -/
def IsTypeSuffix (suffix : List Char) : Prop :=
  suffix = [] ∨ ∃ type, suffix = '^' :: '^' :: type ∧
    ∀ c ∈ type, Text.isBlank c = false ∧ c ∉ ['(', ')', ',', '"']

theorem IsTypeSuffix.chars {suffix : List Char} (h : IsTypeSuffix suffix) :
    ∀ c ∈ suffix, Text.isBlank c = false ∧ Text.Separator.comma.Ignores c := by
  intro c hc
  rcases h with rfl | ⟨type, rfl, htype⟩
  · simp at hc
  · simp only [List.mem_cons] at hc
    rcases hc with rfl | rfl | hc
    · decide
    · decide
    · obtain ⟨hblank, hother⟩ := htype c hc
      simp only [List.mem_cons, List.not_mem_nil, or_false, not_or] at hother
      refine ⟨hblank, ?_, hother.2.2.1⟩
      simp [Text.isMark, hother]

namespace Text

variable {sep : Separator}

theorem walk_inside_quotes {content : List Char} (hcontent : '"' ∉ content) (depth : Int32)
    (rest : List Char) :
    walk sep.startsAt ⟨depth, true⟩ (content ++ rest) = walk sep.startsAt ⟨depth, true⟩ rest := by
  induction content with
  | nil => rfl
  | cons c content ih =>
    rw [List.mem_cons, not_or] at hcontent
    have hstep : Nesting.step ⟨depth, true⟩ c = some ⟨depth, true⟩ := by
      simp [Nesting.step, Ne.symm hcontent.1]
    rw [List.cons_append, walk, if_neg (by simp [Nesting.top]), hstep, Option.bind_some,
      ih hcontent.2]

/-- Reading passes over what is quoted, at any depth. -/
theorem walk_quoted (hsep : sep.IsPlain) {content : List Char} (hcontent : '"' ∉ content)
    (depth : Int32) (rest : List Char) :
    walk sep.startsAt ⟨depth, false⟩ ('"' :: (content ++ '"' :: rest)) =
      walk sep.startsAt ⟨depth, false⟩ rest := by
  have hopen : Nesting.step ⟨depth, false⟩ '"' = some ⟨depth, true⟩ := rfl
  have hclose : Nesting.step ⟨depth, true⟩ '"' = some ⟨depth, false⟩ := rfl
  rw [walk, hsep.startsAt_of_isMark rfl, if_neg (by simp), hopen, Option.bind_some,
    walk_inside_quotes hcontent, walk, if_neg (by simp [Nesting.top]), hclose, Option.bind_some]

end Text

section Literal

variable {content suffix : String} (hcontent : '"' ∉ content.toList)

include hcontent

/-- A literal is one argument, whatever it holds. -/
theorem isArgument_literal (hsuffix : IsTypeSuffix suffix.toList) :
    IsArgument (literalText content suffix).toList := by
  have hchars := hsuffix.chars
  have hinside {sep : Text.Separator} (hsep : sep.IsPlain) :
      Text.UncutInside sep ('"' :: (content.toList ++ '"' :: suffix.toList)) :=
    (Text.walk_quoted hsep hcontent _ _).trans
      (Text.walk_of_not_mark (by decide) fun c hc => (hchars c hc).2.1)
  rw [toList_literalText]
  refine ⟨List.cons_ne_nil _ _, Text.trimmed_of_ends ?_ ?_, ?_,
    hinside Text.Separator.arrow_isPlain, hinside Text.Separator.caret_isPlain⟩
  · intro c hc
    obtain rfl : '"' = c := by simpa using hc
    decide
  · intro c hc
    have hlast : c ∈ ('"' :: suffix.toList).getLast? := by
      simpa [List.getLast?_cons, List.getLast?_append] using hc
    rcases List.mem_cons.1 (List.mem_of_mem_getLast? hlast) with rfl | hmem
    · decide
    · exact (hchars c hmem).1
  · have hrest := Text.walk_append_of_ignores (n := .top) (fun c hc => (hchars c hc).2) []
    rw [List.append_nil] at hrest
    exact (Text.walk_quoted Text.Separator.comma_isPlain hcontent 0 _).trans hrest

namespace RuleText

theorem literal_literalText (suffix : String) :
    literal (literalText content suffix).toList = content.toList := by
  have hbefore : ∀ c ∈ content.toList, decide (c ≠ '"') = true := by
    intro c hc
    simpa using ne_of_mem_of_not_mem hc hcontent
  rw [toList_literalText, literal, if_pos (by simp), List.takeWhile_append_of_pos hbefore]
  simp

/-- A literal is read as the constant with its content. -/
theorem term_literal {m : Type → Type} [Monad m] [MonadExcept Error m]
    (constant : String → m Constant) (suffix : String) :
    term constant (literalText content suffix).toList = (do
      let c ← constant content
      return .const c) := by
  have hvariable : readVariable? (literalText content suffix).toList = none := by
    rw [toList_literalText]
    rfl
  rw [term, hvariable, literal_literalText hcontent, String.ofList_toList]

end RuleText

end Literal

/-! ## A rule about a literal -/

/-- A name that is looked up as it is written in front of a parenthesis. -/
structure IsBareName (name : String) : Prop where
  ne_nil : name.toList ≠ []
  no_blank : ∀ c ∈ name.toList, Text.isBlank c = false
  no_punctuation : ∀ c ∈ ['(', ')', '"', '^', ',', '#'], c ∉ name.toList
  no_arrow : ¬['-', '>'] <:+: name.toList
  no_builtin : ¬Builtin.nameSpace.toList <+: name.toList

theorem IsBareName.isPredicateName {name : String} (h : IsBareName name) :
    IsPredicateName name := by
  have hmark : ∀ c ∈ name.toList, Text.isMark c = false := by
    intro c hc
    have hother (d : Char) (hd : d ∈ ['(', ')', '"', '^', ',', '#']) : c ≠ d :=
      fun heq => h.no_punctuation d hd (heq ▸ hc)
    simp [Text.isMark, hother '(' (by decide), hother ')' (by decide), hother '"' (by decide)]
  refine ⟨⟨h.ne_nil, Text.trimmed_of_forall h.no_blank, h.no_punctuation '(' (by decide),
    Text.uncut_of_not_infix hmark h.no_arrow, Text.uncut_of_not_infix hmark ?_⟩, ?_, ?_⟩
  · intro hcaret
    exact h.no_punctuation '^' (by decide) (hcaret.subset List.mem_cons_self)
  · intro hhash
    exact h.no_punctuation '#' (by decide) (List.mem_of_mem_head? hhash)
  · rw [← Bool.not_eq_true, List.isPrefixOf_iff_prefix]
    exact h.no_builtin

/-- The rule that concludes a link of `?x` from itself. -/
def Rule.restating {κ : Type} (name : String) (property : EntityId) (object : κ) : Rule κ :=
  ⟨name, [.link property (.var ⟨"x"⟩) (.const object)],
    [.link property (.var ⟨"x"⟩) (.const object)]⟩

theorem Rule.ofParts_restating {κ : Type} [DecidableEq κ] (name : String) (property : EntityId)
    (object : κ) :
    Rule.ofParts name (restating name property object).body (restating name property object).head =
      .ok (restating name property object) := by
  have hhead : (restating name property object).head.eraseDups =
      (restating name property object).head := eraseDups_of_nodup (List.nodup_singleton _)
  rw [Rule.ofParts_eq_ok_iff, hhead]
  refine ⟨rfl, ?_, rfl⟩
  simp [restating, headError?, boundVariables, Atom.isRelational, Atom.vars, Atom.terms, Term.var?]

/-- What becomes of the constant becomes of the rule. -/
theorem Rule.Rel.exists_restating {κ lam : Type} {R : κ → lam → Prop} (hR : Relator.RightUnique R)
    {name : String} {property : EntityId} {object : κ} {rule : Rule lam}
    (h : (restating name property object).Rel R rule) :
    ∃ other, R object other ∧ rule = restating name property other := by
  obtain ⟨own, body, head⟩ := rule
  obtain ⟨rfl, hbody, hhead⟩ := h
  cases hbody with
  | cons hb hbrest =>
    cases hhead with
    | cons hh hhrest =>
      cases hbrest
      cases hhrest
      cases hb with
      | link _ hbx hbo =>
        cases hh with
        | link _ hhx hho =>
          cases hbx
          cases hhx
          cases hbo with
          | const hk =>
            cases hho with
            | const hk' =>
              refine ⟨_, hk, ?_⟩
              rw [hR hk' hk]
              rfl

section Literal

variable {r : Registry} (hr : r.Indexed) {property : EntityId} {p : Entity}
  (hp : r.get? property = some p) (hproperty : p.kind.isProperty = true)
  (hname : IsBareName p.name) {content suffix : String} (hcontent : '"' ∉ content.toList)
  (hsuffix : IsTypeSuffix suffix.toList)

include hr hp hproperty hname hcontent hsuffix

namespace RuleText

section Generic

variable {m : Type → Type} [Monad m] [LawfulMonad m] [MonadExcept Error m]
  (constant : String → m Constant)

theorem atom_literal (input : String) :
    IsAtomText (Registry.application p.name ["?x", literalText content suffix]) ∧
      atom r constant input
          (Registry.application p.name ["?x", literalText content suffix]).toList = (do
        let c ← constant content
        return .link property (.var ⟨"x"⟩) (.const c)) := by
  have hpredicate := hname.isPredicateName
  have hresolve : r.resolve p.name = .ok property := by rw [Registry.resolve, hr.ids_name hp]
  have hkind : r.kind? property = some p.kind := by rw [Registry.kind?, hp, Option.map_some]
  have hargs : ∀ arg ∈ ["?x", literalText content suffix], IsArgument arg.toList := by
    simp only [List.forall_mem_cons]
    exact ⟨by decide, isArgument_literal hcontent hsuffix, List.forall_mem_nil _⟩
  refine ⟨.application hpredicate.toIsAtomName hargs, ?_⟩
  rw [atom_application constant r hpredicate.toIsAtomName hargs, hpredicate.no_builtin,
    dropWhile_hash hpredicate.no_hash, String.ofList_toList]
  refine (relationalAtom_property constant hresolve hkind hproperty _ _).trans ?_
  have hx : (term constant "?x".toList : m (Term Constant)) = pure (.var ⟨"x"⟩) := rfl
  rw [hx, term_literal hcontent, pure_bind, bind_assoc]
  simp only [pure_bind]

/-- A text that states a literal twice is read by reading its content as a constant, twice. -/
theorem readRule_literal (name : String) {input : String}
    (hinput : input = Registry.application p.name ["?x", literalText content suffix] ++ " -> " ++
      Registry.application p.name ["?x", literalText content suffix]) :
    readRule r constant name input = (do
      let b ← constant content
      let h ← constant content
      ofExcept ((Rule.ofParts name [.link property (.var ⟨"x"⟩) (.const b)]
        [.link property (.var ⟨"x"⟩) (.const h)]).mapError .rule)) := by
  obtain ⟨htext, hatom⟩ := atom_literal hr hp hproperty hname hcontent hsuffix constant input
  have hone : " ^ ".intercalate [Registry.application p.name ["?x", literalText content suffix]] =
      Registry.application p.name ["?x", literalText content suffix] := by
    simp
  rw [readRule_append constant r name (List.forall_mem_singleton.2 htext) (List.cons_ne_nil _ _)
    (List.forall_mem_singleton.2 htext) (List.cons_ne_nil _ _) (by rw [hone, hinput])]
  simp only [List.mapM_cons, List.mapM_nil, hatom, bind_assoc, pure_bind]

end Generic

/-- Without any claims, what becomes of the content becomes of the rule. -/
theorem readRule_checked_literal (name : String) {input : String}
    (hinput : input = Registry.application p.name ["?x", literalText content suffix] ++ " -> " ++
      Registry.application p.name ["?x", literalText content suffix]) :
    readRule r (checked r) name input =
      (checked r content).map (Rule.restating name property) := by
  rw [readRule_literal hr hp hproperty hname hcontent hsuffix (checked r) name hinput]
  cases checked r content with
  | error e => rfl
  | ok c =>
    exact (ofExcept_self _).trans
      (congrArg (Except.mapError Error.rule) (Rule.ofParts_restating name property c))

end RuleText

/-! ## What becomes of the rule -/

section Outcome

variable (name : String) {input : String}
  (hinput : input = Registry.application p.name ["?x", literalText content suffix] ++ " -> " ++
    Registry.application p.name ["?x", literalText content suffix])

include hinput

/-- A content that is not to be had as a constant is refused for that reason. -/
theorem parse_literal_of_error {e : Error} (h : RuleText.checked r content = .error e) :
    Rule.parse r name input = (.error e, r) := by
  have hconstant : RuleText.constant r content = throw e := by
    rw [RuleText.constant, RuleText.meaning_eq_checked hr, h]
    rfl
  rw [Rule.parse, RuleText.readRule_literal hr hp hproperty hname hcontent hsuffix _ name hinput,
    hconstant]
  rfl

theorem parse_literal_of_known {e : EntityId} (h : RuleText.checked r content = .ok (.known e)) :
    Rule.parse r name input = (.ok (Rule.restating name property e), r) := by
  have hread := RuleText.readRule_checked_literal hr hp hproperty hname hcontent hsuffix name hinput
  rw [h] at hread
  refine (commit_eq_ok_iff (RuleText.follows_readRule hr name input)).2
    ⟨Rule.restating name property (.known e), hread, Nat.zero_le _, ?_⟩
  have hdraft : Rule.restating name property (Constant.known e) =
      (Rule.restating name property e).map .known := rfl
  rw [hdraft, Rule.mapConstM_map_known]
  rfl

omit hr hp hproperty hname hcontent hsuffix hinput in
theorem freshNames_restating (property : EntityId) (content : String) :
    freshNames (Rule.restating name property (.fresh content)).constants = [content] := by
  have hconstants : (Rule.restating name property (Constant.fresh content)).constants =
      [.fresh content, .fresh content] := rfl
  simp [hconstants, freshNames, Constant.fresh?, List.eraseDups_cons]

section New

variable (hnew : r.resolve content = .error (.notFound content))

include hnew

theorem readRule_literal_of_new : RuleText.readRule r (RuleText.checked r) name input =
    .ok (Rule.restating name property (.fresh content)) := by
  have hchecked : RuleText.checked r content = .ok (.fresh content) := by
    rw [RuleText.checked, hnew]
  rw [RuleText.readRule_checked_literal hr hp hproperty hname hcontent hsuffix name hinput,
    hchecked]
  rfl

/-- A content that means nothing is refused if all identifiers are in use. -/
theorem parse_literal_of_full (hfull : r.unused = 0) :
    Rule.parse r name input = (.error (.registry .exhausted), r) := by
  have hread := readRule_literal_of_new hr hp hproperty hname hcontent hsuffix name hinput hnew
  rcases commit_cases (RuleText.follows_readRule hr name input)
    (Rule.mapConstM Constant.intern) with ⟨draft, hdraft, hroom, -⟩ | ⟨e, hcommit, he⟩
  · cases hread.symm.trans hdraft
    rw [freshNames_restating, hfull] at hroom
    cases hroom
  · rw [(he _ hread).2] at hcommit
    exact hcommit

/-- A content that means nothing becomes an individual with that name. -/
theorem parse_literal_of_new (hbuilt : r.Built) (hroom : 0 < r.unused) :
    ∃ e r', Rule.parse r name input = (.ok (Rule.restating name property e), r') ∧
      r'.Built ∧ r'.all = r.all ++ [⟨e, .individual, content⟩] := by
  have hread := readRule_literal_of_new hr hp hproperty hname hcontent hsuffix name hinput hnew
  have hfresh := freshNames_restating name property content
  have hreading := RuleText.follows_readRule hr name input
  rw [hread] at hreading
  obtain ⟨rule, r', hparse, hadds⟩ := hbuilt.commit_of_ok (Rule.discard_mapConstM Constant.intern)
    hreading (RuleText.offers_of_readRule hread) (by rw [hfresh]; exact hroom)
  rw [hfresh] at hadds
  obtain ⟨hbuilt', ids, hids, hall⟩ := hadds
  obtain ⟨e, rfl⟩ : ∃ e, ids = [e] := by
    rw [← List.length_eq_one_iff, ← List.length_map (f := EntityId.toNat), hids,
      List.length_range', List.length_singleton]
  have hr' := hbuilt'.wellFormed
  have hmem : (⟨e, .individual, content⟩ : Entity) ∈ r'.all := by
    rw [hall]
    exact List.mem_append_right _ List.mem_cons_self
  obtain ⟨draft, hdraft, -, hrun⟩ := (commit_eq_ok_iff hreading).1 hparse
  cases hdraft
  obtain ⟨-, -, hrel⟩ := Registry.settles_intern.rule.run hbuilt.wellFormed hrun
  obtain ⟨e', hden, rfl⟩ := hrel.exists_restating hr'.rightUnique_denotes
  have hnamed : r'.Denotes (.fresh content) e := hr'.get?_id hmem
  obtain rfl : e = e' := hr'.rightUnique_denotes hnamed hden
  exact ⟨e, r', hparse, hbuilt', hall⟩

end New

end Outcome

end Literal

/-- **Quotes protect any content.** A text states of a property, twice, that it links `?x` to a
    quoted literal. Whatever is in the quotes and whatever type is given, the outcome is decided by
    what the content means: an individual is taken, a content that means nothing becomes an
    individual with exactly that name, and a content that means something else or several things is
    refused for that reason alone. Only a content that is to become an individual when all
    identifiers are in use is refused for want of one. -/
theorem parse_literal_by_resolve {r : Registry} (hr : r.Reachable) {property : EntityId}
    {p : Entity} (hp : r.get? property = some p) (hproperty : p.kind.isProperty = true)
    (hname : IsBareName p.name) (content suffix : String) (hcontent : '"' ∉ content.toList)
    (hsuffix : IsTypeSuffix suffix.toList) (name : String) :
    let atom := p.name ++ "(?x, \"" ++ content ++ "\"" ++ suffix ++ ")"
    let parsed := Rule.parse r name (atom ++ " -> " ++ atom)
    let rule (e : EntityId) : Rule EntityId :=
      ⟨name, [.link property (.var ⟨"x"⟩) (.const e)], [.link property (.var ⟨"x"⟩) (.const e)]⟩
    match r.resolve content with
    | .ok e => ∃ kind, r.kind? e = some kind ∧
        parsed = (if kind = .individual then .ok (rule e)
          else .error (.registry (.kindConflict (r.name e) kind .individual)), r)
    | .error (.notFound _) =>
        if r.all.length < 2 ^ 32 - 1 then
          ∃ e r', parsed = (.ok (rule e), r') ∧ r'.Built ∧
            r'.all = r.all ++ [⟨e, .individual, content⟩]
        else parsed = (.error (.registry .exhausted), r)
    | .error (.ambiguous shown candidates) =>
        parsed = (.error (.registry (.ambiguous shown candidates)), r)
    | .error _ => False := by
  intro atom parsed rule
  have hindexed := hr.indexed
  have hatom : atom = Registry.application p.name ["?x", literalText content suffix] := by
    rw [← String.toList_inj, toList_application]
    simp [atom, literalText, List.intercalate_cons_cons]
  have hinput : atom ++ " -> " ++ atom =
      Registry.application p.name ["?x", literalText content suffix] ++ " -> " ++
        Registry.application p.name ["?x", literalText content suffix] := by
    rw [hatom]
  cases hresolve : r.resolve content with
  | ok e =>
    obtain ⟨kind, hkind, hchecked⟩ := RuleText.exists_checked_of_resolve hindexed hresolve
    refine ⟨kind, hkind, ?_⟩
    by_cases hindividual : kind = .individual
    · rw [if_pos hindividual] at hchecked ⊢
      exact parse_literal_of_known hindexed hp hproperty hname hcontent hsuffix name hinput hchecked
    · rw [if_neg hindividual] at hchecked ⊢
      exact parse_literal_of_error hindexed hp hproperty hname hcontent hsuffix name hinput hchecked
  | error cause =>
    rcases Registry.resolve_error_cases hresolve with rfl | ⟨candidates, rfl⟩
    · dsimp only
      split
      · next hroom =>
        have hunused : 0 < r.unused := Nat.sub_pos_of_lt hroom
        have hbuilt : r.Built := hr.built_or_full.resolve_right (Nat.ne_of_gt hunused)
        exact parse_literal_of_new hindexed hp hproperty hname hcontent hsuffix name hinput
          hresolve hbuilt hunused
      · next hroom =>
        have hfull : r.unused = 0 := Nat.sub_eq_zero_of_le (Nat.le_of_not_lt hroom)
        exact parse_literal_of_full hindexed hp hproperty hname hcontent hsuffix name hinput
          hresolve hfull
    · have hchecked : RuleText.checked r content =
          .error (.registry (.ambiguous content candidates)) := by
        rw [RuleText.checked, hresolve]
      exact parse_literal_of_error hindexed hp hproperty hname hcontent hsuffix name hinput hchecked

/-- What would close, separate and comment anything outside the quotes is the name of a new
    individual; the name of a class is refused between quotes as it is without them. -/
theorem parse_literal_by_resolve_places :
    (∃ e r', Rule.parse Places.registry "r"
        ("locatedIn(?x, \" a) ^ #b, ?c -> (\"^^xsd:string) -> " ++
          "locatedIn(?x, \" a) ^ #b, ?c -> (\"^^xsd:string)") =
          (.ok ⟨"r", [.link Places.locatedIn (.var ⟨"x"⟩) (.const e)],
            [.link Places.locatedIn (.var ⟨"x"⟩) (.const e)]⟩, r') ∧
        r'.all = Places.registry.all ++ [⟨e, .individual, " a) ^ #b, ?c -> ("⟩]) ∧
      Rule.parse Places.registry "r" "locatedIn(?x, \"Place\") -> locatedIn(?x, \"Place\")" =
        (.error (.registry (.kindConflict "Place" .cls .individual)), Places.registry) := by
  obtain ⟨hbuilt, hall⟩ := Places.built_registry
  have hget := Places.get?_of_all hall
  have hbare : IsBareName "locatedIn" :=
    ⟨by decide, List.all_iff_forall_prop.1 (by decide), List.all_iff_forall_prop.1 (by decide),
      by decide, by decide⟩
  constructor
  · have hnew : Places.registry.resolve " a) ^ #b, ?c -> (" =
        .error (.notFound " a) ^ #b, ?c -> (") := by
      refine hbuilt.wellFormed.resolve_eq_notFound ?_
      rw [hall]
      decide
    have hsuffix : IsTypeSuffix "^^xsd:string".toList :=
      .inr ⟨"xsd:string".toList, rfl, List.all_iff_forall_prop.1 (by decide)⟩
    have hroom : Places.registry.all.length < 2 ^ 32 - 1 := by
      rw [hall]
      decide
    have hread := parse_literal_by_resolve hbuilt.reachable (hget Places.locatedIn) rfl hbare
      " a) ^ #b, ?c -> (" "^^xsd:string" (by decide) hsuffix "r"
    simp only [hnew, if_pos hroom] at hread
    obtain ⟨e, r', hparse, -, hadded⟩ := hread
    exact ⟨e, r', hparse, hadded⟩
  · have hplace : Places.registry.resolve "Place" = .ok Places.place :=
      hbuilt.wellFormed.resolve_name (hget Places.place)
    have hread := parse_literal_by_resolve hbuilt.reachable (hget Places.locatedIn) rfl hbare
      "Place" "" (by decide) (.inl rfl) "r"
    simp only [hplace] at hread
    obtain ⟨kind, hkind, hparse⟩ := hread
    rw [Registry.kind?, hget] at hkind
    cases hkind
    rw [Registry.name_eq (hget Places.place)] at hparse
    exact hparse

/-- When all identifiers are in use, a content that means nothing is refused. -/
theorem parse_literal_exhausted :
    let r := Registry.Letters.filled (2 ^ 32 - 2)
    r.Reachable ∧ r.get? Registry.first = some ⟨Registry.first, .objectProperty, "p"⟩ ∧
      IsBareName "p" ∧ r.resolve "v" = .error (.notFound "v") ∧
      Rule.parse r "r" "p(?x, \"v\") -> p(?x, \"v\")" = (.error (.registry .exhausted), r) := by
  intro r
  have hcount : 2 ^ 32 - 2 < 2 ^ 32 - 1 := by decide
  have hreachable : r.Reachable := Registry.Letters.reachable_filled _
  have hget := Registry.Letters.get?_first_filled hcount
  have hbare : IsBareName "p" :=
    ⟨by decide, List.all_iff_forall_prop.1 (by decide), List.all_iff_forall_prop.1 (by decide),
      by decide, by decide⟩
  have hnew : r.resolve "v" = .error (.notFound "v") := by
    refine (Registry.Letters.filled_spec hcount).1.resolve_eq_notFound ?_
    exact Registry.Letters.isNew_filled hcount "v" List.mem_cons_self (by decide) (by decide)
  have hfull : r.unused = 0 := by
    rw [Registry.unused, Registry.Letters.length_filled hcount]
    decide
  refine ⟨hreachable, hget, hbare, hnew, ?_⟩
  exact parse_literal_of_full hreachable.indexed hget rfl hbare (by decide)
    (.inl String.toList_empty) "r" rfl hnew hfull

end HornOntology
