import HornOntology.Proofs.Splitting
import Mathlib.Algebra.Group.Nat.Even
import Mathlib.Algebra.Ring.Int.Defs

set_option autoImplicit false

/-! # Balanced texts and where they are cut

A place in a text is outside literals if an even number of quotes comes before it, and it is at the
top if, besides, as many parentheses outside literals were closed before it as were opened. Reading
counts the same, but in 32 bits: its depth is the number of open parentheses up to a multiple of
`2 ^ 32` (`eq_nesting_of_foldlM_step`). It is that number as long as no place in the text is more
than `2 ^ 31` parentheses deep, and this is the condition under which reading and counting agree: a
`Shallow` text can be split exactly if it is `Balanced` (`exists_splitTopLevel_iff`), and a balanced
text exactly if it is shallow (`Balanced.exists_splitTopLevel_iff`).

Whatever the depth, the parts of a split give the text back (`intercalate_of_splitTopLevel`). A
shallow text is cut wherever the separator stands at the top (`cutAt_iff_of_splitTopLevel`). All
counts are over any alphabet, since texts are also read as bytes. -/

namespace HornOntology.Text

/-! ## Counting -/

/-- The symbols of an alphabet that open or close something. -/
structure Marks (α : Type) where
  quote : α
  opening : α
  closing : α

/-- The marks among the characters. -/
def Marks.char : Marks Char := ⟨'"', '(', ')'⟩

@[simp] theorem Marks.quote_char : Marks.char.quote = '"' := rfl

@[simp] theorem Marks.opening_char : Marks.char.opening = '(' := rfl

@[simp] theorem Marks.closing_char : Marks.char.closing = ')' := rfl

section Counting

variable {α : Type} [DecidableEq α] (m : Marks α)

/-- How often a symbol stands outside the literals of a text. -/
def countOutside (a : α) (text : List α) : Nat :=
  (List.range text.length).countP fun i => text[i]? = some a ∧ Even ((text.take i).count m.quote)

/-- The place after a text is outside parentheses and literals. -/
def AtTop (before : List α) : Prop :=
  Even (before.count m.quote) ∧
    countOutside m m.closing before = countOutside m m.opening before

/-- All literals are ended, and outside them every parenthesis that was opened is closed later. -/
structure Balanced (text : List α) : Prop where
  atTop : AtTop m text
  closing_le : ∀ before, before <+: text →
    countOutside m m.closing before ≤ countOutside m m.opening before

/-- No place in a text is inside more than `2 ^ 31` parentheses. -/
def Shallow (text : List α) : Prop := ∀ before, before <+: text →
  countOutside m m.opening before ≤ countOutside m m.closing before + 2 ^ 31

/-- A separator stands at a place outside parentheses and literals. -/
def CutAt (sep text : List α) (i : Nat) : Prop := sep <+: text.drop i ∧ AtTop m (text.take i)

theorem countOutside_concat (a : α) (text : List α) (c : α) :
    countOutside m a (text ++ [c]) =
      countOutside m a text + if c = a ∧ Even (text.count m.quote) then 1 else 0 := by
  have hbefore : (List.range text.length).countP (fun i => decide ((text ++ [c])[i]? = some a ∧
      Even (((text ++ [c]).take i).count m.quote))) = countOutside m a text := by
    refine List.countP_congr fun i hi => ?_
    rw [List.mem_range] at hi
    rw [List.getElem?_append_left hi, List.take_append_of_le_length (Nat.le_of_lt hi)]
  rw [countOutside, List.length_append, List.length_singleton, List.range_succ, List.countP_append,
    hbefore, List.countP_singleton]
  simp

theorem countOutside_append_of_not_mem {a : α} (text : List α) {more : List α} (h : a ∉ more) :
    countOutside m a (text ++ more) = countOutside m a text := by
  induction more using List.reverseRecOn with
  | nil => rw [List.append_nil]
  | append_singleton more c ih =>
    simp only [List.mem_append, List.mem_singleton, not_or] at h
    rw [← List.append_assoc, countOutside_concat, ih h.1, if_neg fun hc => h.2 hc.1.symm,
      Nat.add_zero]

/-- After a text with all literals ended, counting goes on as from the beginning. -/
theorem countOutside_append {a : α} {text : List α} (h : Even (text.count m.quote))
    (more : List α) :
    countOutside m a (text ++ more) = countOutside m a text + countOutside m a more := by
  induction more using List.reverseRecOn with
  | nil => simp [countOutside]
  | append_singleton more c ih =>
    simp only [← List.append_assoc, countOutside_concat, ih, List.count_append, Nat.even_add, h,
      true_iff, Nat.add_assoc]

theorem countOutside_eq_count {a : α} {text : List α} (h : m.quote ∉ text) :
    countOutside m a text = text.count a := by
  induction text using List.reverseRecOn with
  | nil => rfl
  | append_singleton text c ih =>
    simp only [List.mem_append, not_or] at h
    rw [countOutside_concat, ih h.1, List.count_append, List.count_singleton,
      List.count_eq_zero_of_not_mem h.1]
    simp

end Counting

/-! ## Reading a text -/

/-- How many parentheses are open after a text, by counting. -/
def openAfter (text : List Char) : Int :=
  countOutside .char '(' text - countOutside .char ')' text

/-- The nesting after a text, by counting. -/
def nesting (text : List Char) : Nesting where
  depth := .ofInt (openAfter text)
  isQuoted := !decide (Even (text.count '"'))

theorem openAfter_concat (text : List Char) (c : Char) :
    openAfter (text ++ [c]) = openAfter text +
      if Even (text.count '"') then if c = '(' then 1 else if c = ')' then -1 else 0 else 0 := by
  unfold openAfter
  simp only [countOutside_concat, Marks.quote_char]
  by_cases hquotes : Even (text.count '"')
  · by_cases hopen : c = '('
    · simp only [hopen, hquotes, and_self, if_true, Char.reduceEq, false_and, if_false]
      omega
    · by_cases hclose : c = ')'
      · simp only [hclose, hquotes, and_self, if_true, Char.reduceEq, false_and, if_false]
        omega
      · simp [hopen, hclose]
  · simp [hquotes]

/-- One character more: it is refused if it closes a parenthesis and leaves the depth below zero. -/
theorem step_nesting (text : List Char) (c : Char) :
    (nesting text).step c =
      if c = ')' ∧ Even (text.count '"') ∧ Int32.ofInt (openAfter text - 1) < 0 then none
      else some (nesting (text ++ [c])) := by
  simp only [nesting, Nesting.step, openAfter_concat, List.count_append, List.count_singleton]
  by_cases hquote : c = '"'
  · subst hquote
    have hparity : decide (Even (text.count '"' + 1)) = !decide (Even (text.count '"')) := by
      simp only [Nat.even_add_one, decide_not]
    simp [hparity]
  by_cases hquotes : Even (text.count '"')
  · by_cases hopen : c = '('
    · subst hopen
      simp [hquotes]
    by_cases hclose : c = ')'
    · subst hclose
      simp [hquotes, Int32.sub_eq_add_neg]
    · simp [hquote, hquotes, hopen, hclose]
  · simp [hquote, hquotes]

/-- Reading one character after the other is counting. -/
theorem eq_nesting_of_foldlM_step {text : List Char} {n : Nesting}
    (h : text.foldlM Nesting.step .top = some n) : n = nesting text := by
  induction text using List.reverseRecOn generalizing n with
  | nil => exact (Option.some.inj h).symm
  | append_singleton text c ih =>
    simp only [List.foldlM_append, List.foldlM_cons, List.foldlM_nil, bind_pure,
      Option.bind_eq_bind, Option.bind_eq_some_iff] at h
    obtain ⟨k, hk, hstep⟩ := h
    rw [ih hk, step_nesting] at hstep
    split at hstep
    · cases hstep
    · exact (Option.some.inj hstep).symm

/-- The depth is below zero if the number is, as long as it is small. -/
theorem ofInt_lt_zero_iff {d : Int} (hlow : -1 ≤ d) (hhigh : d < 2 ^ 31) :
    Int32.ofInt d < 0 ↔ d < 0 := by
  rw [Int32.lt_iff_toInt_lt, Int32.toInt_ofInt_of_le (by omega) hhigh, Int32.toInt_zero]

theorem ofInt_eq_zero_iff {d : Int} (hlow : 0 ≤ d) (hhigh : d ≤ 2 ^ 31) :
    Int32.ofInt d = 0 ↔ d = 0 := by
  constructor
  · intro h
    have hmod := congrArg Int32.toInt h
    rw [Int32.toInt_ofInt, Int32.toInt_zero] at hmod
    have hdvd := Int.dvd_of_bmod_eq_zero hmod
    rw [Int32.size] at hdvd
    omega
  · rintro rfl
    rfl

theorem nesting_eq_top_iff {text : List Char} (hclosed : 0 ≤ openAfter text)
    (hopen : openAfter text ≤ 2 ^ 31) : nesting text = .top ↔ AtTop .char text := by
  simp only [nesting, Nesting.top, Nesting.mk.injEq, Bool.not_eq_false', decide_eq_true_eq, AtTop,
    Marks.quote_char, Marks.opening_char, Marks.closing_char, ofInt_eq_zero_iff hclosed hopen]
  rw [and_comm]
  refine and_congr_right fun _ => ?_
  unfold openAfter
  omega

/-- Where not too much is open, a character is refused if more would be closed than was opened. -/
theorem step_nesting_eq_some_iff {text : List Char} (hclosed : 0 ≤ openAfter text)
    (hopen : openAfter text ≤ 2 ^ 31) {c : Char} {n : Nesting} :
    (nesting text).step c = some n ↔
      0 ≤ openAfter (text ++ [c]) ∧ nesting (text ++ [c]) = n := by
  have hsign : Int32.ofInt (openAfter text - 1) < 0 ↔ openAfter text - 1 < 0 :=
    ofInt_lt_zero_iff (by omega) (by omega)
  have hafter := openAfter_concat text c
  simp only [step_nesting, hsign]
  grind

theorem Shallow.of_isPrefix {α : Type} [DecidableEq α] {m : Marks α} {text more : List α}
    (h : Shallow m more) (hbegins : text <+: more) : Shallow m text :=
  fun before hbefore => h before (hbefore.trans hbegins)

theorem Shallow.openAfter_le {text : List Char} (h : Shallow .char text) :
    openAfter text ≤ 2 ^ 31 := by
  have hle := h text (List.prefix_refl text)
  simp only [Marks.opening_char, Marks.closing_char] at hle
  unfold openAfter
  omega

/-- In a shallow text, reading fails where more is closed than was opened. -/
theorem foldlM_step_eq_some_iff {text : List Char} (hshallow : Shallow .char text) {n : Nesting} :
    text.foldlM Nesting.step .top = some n ↔
      (∀ before, before <+: text → 0 ≤ openAfter before) ∧ nesting text = n := by
  induction text using List.reverseRecOn generalizing n with
  | nil =>
    simp [List.prefix_nil, nesting, openAfter, countOutside, Nesting.top]
  | append_singleton text c ih =>
    have hshorter := hshallow.of_isPrefix (List.prefix_append text [c])
    have hopen := hshorter.openAfter_le
    simp only [List.foldlM_append, List.foldlM_cons, List.foldlM_nil, bind_pure, ih hshorter,
      Option.bind_eq_bind, Option.bind_eq_some_iff, List.prefix_concat_iff]
    constructor
    · rintro ⟨m, ⟨hbefore, rfl⟩, hstep⟩
      obtain ⟨hlast, hn⟩ :=
        (step_nesting_eq_some_iff (hbefore text (List.prefix_refl text)) hopen).1 hstep
      refine ⟨?_, hn⟩
      rintro before (rfl | hbegins)
      · exact hlast
      · exact hbefore before hbegins
    · rintro ⟨hbefore, hn⟩
      refine ⟨_, ⟨fun before hbegins => hbefore before (.inr hbegins), rfl⟩, ?_⟩
      exact (step_nesting_eq_some_iff (hbefore text (.inr (List.prefix_refl text))) hopen).2
        ⟨hbefore _ (.inl rfl), hn⟩

theorem balanced_iff {text : List Char} :
    Balanced .char text ↔
      AtTop .char text ∧ ∀ before, before <+: text → 0 ≤ openAfter before := by
  have hcount (before : List Char) : 0 ≤ openAfter before ↔
      countOutside .char ')' before ≤ countOutside .char '(' before := by
    unfold openAfter
    omega
  simp only [hcount]
  exact ⟨fun h => ⟨h.atTop, h.closing_le⟩, fun h => ⟨h.1, h.2⟩⟩

theorem Shallow.foldlM_step_eq_top_iff {text : List Char} (hshallow : Shallow .char text) :
    text.foldlM Nesting.step .top = some .top ↔ Balanced .char text := by
  rw [foldlM_step_eq_some_iff hshallow, balanced_iff, and_comm]
  refine and_congr_left fun hbefore => ?_
  exact nesting_eq_top_iff (hbefore text (List.prefix_refl text)) hshallow.openAfter_le

/-- In a shallow balanced text, a place is at the top if reading comes to the top there. -/
theorem Balanced.foldlM_step_take_iff {text : List Char} (h : Balanced .char text)
    (hshallow : Shallow .char text) (i : Nat) :
    (text.take i).foldlM Nesting.step .top = some .top ↔ AtTop .char (text.take i) := by
  have hbefore (before : List Char) (hshorter : before <+: text.take i) :=
    h.closing_le before <| hshorter.trans <| List.take_prefix i text
  rw [(hshallow.of_isPrefix (List.take_prefix i text)).foldlM_step_eq_top_iff]
  exact ⟨Balanced.atTop, fun htop => ⟨htop, hbefore⟩⟩

/-! ## Where the depth runs over -/

/-- Reading that has been inside more than `2 ^ 31` parentheses does not come back: there a closing
    parenthesis finds the depth below zero until there are more than `2 ^ 32` open ones. -/
theorem shallow_or_of_foldlM_step {text : List Char} {n : Nesting}
    (h : text.foldlM Nesting.step .top = some n) :
    Shallow .char text ∨ 2 ^ 31 < openAfter text := by
  induction text using List.reverseRecOn generalizing n with
  | nil =>
    refine .inl fun before hbefore => ?_
    rw [List.prefix_nil.1 hbefore]
    exact Nat.zero_le _
  | append_singleton text c ih =>
    simp only [List.foldlM_append, List.foldlM_cons, List.foldlM_nil, bind_pure,
      Option.bind_eq_bind, Option.bind_eq_some_iff] at h
    obtain ⟨k, hk, hstep⟩ := h
    have hlast := openAfter_concat text c
    rcases ih hk with hshallow | hdeep
    · by_cases hover : 2 ^ 31 < openAfter (text ++ [c])
      · exact .inr hover
      · refine .inl fun before hbefore => ?_
        rcases List.prefix_concat_iff.1 hbefore with rfl | hshorter
        · unfold openAfter at hover
          simp only [Marks.opening_char, Marks.closing_char]
          omega
        · exact hshallow before hshorter
    · right
      rw [eq_nesting_of_foldlM_step hk, step_nesting] at hstep
      -- with one parenthesis more than `2 ^ 31` open, none can be closed
      have hleast : openAfter text - 1 = 2 ^ 31 → Int32.ofInt (openAfter text - 1) < 0 := by
        intro hopen
        rw [hopen]
        decide
      grind

theorem Balanced.shallow_of_foldlM_step {text : List Char} {n : Nesting}
    (h : Balanced .char text) (hread : text.foldlM Nesting.step .top = some n) :
    Shallow .char text := by
  rcases shallow_or_of_foldlM_step hread with hshallow | hdeep
  · exact hshallow
  · have hclosed := h.atTop.2
    unfold openAfter at hdeep
    simp only [Marks.opening_char, Marks.closing_char] at hclosed
    omega

/-- A short text is shallow. -/
theorem shallow_of_length_le {α : Type} [DecidableEq α] {m : Marks α} {text : List α}
    (h : text.length ≤ 2 ^ 31) : Shallow m text := by
  intro before hbefore
  have hcount : countOutside m m.opening before ≤ before.length := by
    rw [countOutside]
    exact (List.countP_le_length).trans_eq List.length_range
  have hlength := hbefore.length_le
  omega

/-! ## Splitting and joining -/

section Splitting

variable {sep : Separator} {n m : Nesting}

theorem foldlM_step_of_not_mark {text : List Char} (h : ∀ c ∈ text, isMark c = false)
    (n : Nesting) : text.foldlM Nesting.step n = some n := by
  induction text with
  | nil => rfl
  | cons c text ih =>
    rw [List.forall_mem_cons] at h
    simp only [List.foldlM_cons, Nesting.step_of_not_mark n h.1, Option.bind_eq_bind,
      Option.bind_some]
    exact ih h.2

/-- A separator leaves the nesting as it is. -/
theorem Separator.IsPlain.foldlM_step_append (hsep : sep.IsPlain) (n : Nesting)
    (rest : List Char) :
    (sep.toList ++ rest).foldlM Nesting.step n = rest.foldlM Nesting.step n := by
  rw [List.foldlM_append, foldlM_step_of_not_mark (fun c hc => (hsep.1 c hc).1)]
  rfl

theorem Separator.exists_of_startsAt {c : Char} {text : List Char}
    (h : sep.startsAt c text = true) : ∃ rest, c :: text = sep.toList ++ rest ∧
      text.drop sep.rest.length = rest := by
  simp only [startsAt, Bool.and_eq_true, decide_eq_true_eq, List.isPrefixOf_iff_prefix] at h
  obtain ⟨rfl, rest, rfl⟩ := h
  exact ⟨rest, rfl, List.drop_left⟩

/-- A split succeeds if reading ends at the top, and then the parts give the text back. -/
theorem splitFrom_spec (hsep : sep.IsPlain) (n : Nesting) (current text : List Char) :
    match splitFrom sep n.depth n.isQuoted current text with
    | .ok parts => text.foldlM Nesting.step n = some .top ∧
        sep.toList.intercalate parts = current.reverse ++ text
    | .error _ => text.foldlM Nesting.step n ≠ some .top := by
  -- on the length: after a separator reading goes on several characters further
  induction hlen : text.length using Nat.strong_induction_on generalizing n current text with
  | _ length ih =>
    cases text with
    | nil =>
      unfold splitFrom
      obtain ⟨depth, isQuoted⟩ := n
      by_cases hdepth : depth = 0
      · cases isQuoted <;> simp [hdepth, Nesting.top]
      · simp [hdepth, Nesting.top]
    | cons c text =>
      rw [splitFrom_cons hsep]
      by_cases hstart : n = .top ∧ sep.startsAt c text
      · obtain ⟨rfl, hstart⟩ := hstart
        obtain ⟨rest, htext, hrest⟩ := Separator.exists_of_startsAt hstart
        have hshorter : rest.length < length := by
          rw [← hlen, htext, Separator.toList, List.length_append, List.length_cons]
          omega
        have hspec := ih _ hshorter .top [] rest rfl
        rw [if_pos ⟨rfl, hstart⟩, hrest, htext, hsep.foldlM_step_append]
        change match (splitTopLevel sep rest) with
          | .ok parts => _
          | .error _ => _ at hspec
        cases hparts : splitTopLevel sep rest with
        | error e =>
          rw [hparts] at hspec
          exact hspec
        | ok parts =>
          rw [hparts] at hspec
          obtain ⟨part, others, rfl⟩ :=
            List.exists_cons_of_ne_nil (ne_nil_of_splitTopLevel hsep hparts)
          refine ⟨hspec.1, ?_⟩
          rw [List.intercalate_cons_cons, hspec.2, List.append_assoc]
          rfl
      · rw [if_neg hstart]
        cases hstep : n.step c with
        | none => simp [hstep]
        | some m =>
          have hspec := ih text.length (by rw [← hlen, List.length_cons]; omega) m (c :: current)
            text rfl
          simp only [List.foldlM_cons, hstep, Option.bind_eq_bind, Option.bind_some]
          simpa using hspec

theorem splitTopLevel_spec (hsep : sep.IsPlain) (text : List Char) :
    match splitTopLevel sep text with
    | .ok parts => text.foldlM Nesting.step .top = some .top ∧ sep.toList.intercalate parts = text
    | .error _ => text.foldlM Nesting.step .top ≠ some .top :=
  splitFrom_spec hsep .top [] text

theorem exists_splitTopLevel_iff_foldlM_step (hsep : sep.IsPlain) {text : List Char} :
    (∃ parts, splitTopLevel sep text = .ok parts) ↔
      text.foldlM Nesting.step .top = some .top := by
  have hspec := splitTopLevel_spec hsep text
  cases hparts : splitTopLevel sep text with
  | error e =>
    rw [hparts] at hspec
    exact iff_of_false (by simp) hspec
  | ok parts =>
    rw [hparts] at hspec
    exact iff_of_true ⟨parts, rfl⟩ hspec.1

theorem walk_never (n : Nesting) (text : List Char) :
    walk (fun _ _ => false) n text = text.foldlM Nesting.step n := by
  induction text generalizing n with
  | nil => rfl
  | cons c text ih => simp [walk, ih]

theorem walk_of_splitTopLevel (hsep : sep.IsPlain) {text : List Char} {parts : List (List Char)}
    (h : splitTopLevel sep text = .ok parts) : walk (fun _ _ => false) .top text = some .top := by
  rw [walk_never]
  exact (exists_splitTopLevel_iff_foldlM_step hsep).1 ⟨parts, h⟩

theorem exists_splitTopLevel_iff (hsep : sep.IsPlain) {text : List Char}
    (hshallow : Shallow .char text) :
    (∃ parts, splitTopLevel sep text = .ok parts) ↔ Balanced .char text :=
  (exists_splitTopLevel_iff_foldlM_step hsep).trans hshallow.foldlM_step_eq_top_iff

theorem Balanced.exists_splitTopLevel_iff (hsep : sep.IsPlain) {text : List Char}
    (h : Balanced .char text) :
    (∃ parts, splitTopLevel sep text = .ok parts) ↔ Shallow .char text := by
  rw [exists_splitTopLevel_iff_foldlM_step hsep]
  exact ⟨h.shallow_of_foldlM_step, fun hshallow => hshallow.foldlM_step_eq_top_iff.2 h⟩

theorem intercalate_of_splitTopLevel (hsep : sep.IsPlain) {text : List Char}
    {parts : List (List Char)} (h : splitTopLevel sep text = .ok parts) :
    sep.toList.intercalate parts = text := by
  have hspec := splitTopLevel_spec hsep text
  rw [h] at hspec
  exact hspec.2

end Splitting

/-! ## The cuts -/

section Cuts

variable {sep : Separator} {n m : Nesting} {stops : Char → List Char → Bool}

theorem foldlM_step_of_walk {text : List Char} (h : walk stops n text = some m) :
    text.foldlM Nesting.step n = some m := by
  induction text generalizing n with
  | nil => exact h
  | cons c text ih =>
    rw [walk] at h
    split at h
    · cases h
    · obtain ⟨k, hk, hrest⟩ := Option.bind_eq_some_iff.1 h
      simp only [List.foldlM_cons, hk, Option.bind_eq_bind, Option.bind_some]
      exact ih hrest

theorem Uncut.balanced {text : List Char} (h : Uncut sep text) (hshallow : Shallow .char text) :
    Balanced .char text :=
  hshallow.foldlM_step_eq_top_iff.1 (foldlM_step_of_walk h)

/-- After a place at the top, a text is as deep as its rest. -/
theorem Shallow.of_append {before text : List Char} (h : Shallow .char (before ++ text))
    (htop : AtTop .char before) : Shallow .char text := by
  intro start hstart
  have hle := h (before ++ start) ((List.prefix_append_right_inj before).2 hstart)
  rw [countOutside_append _ htop.1, countOutside_append _ htop.1, htop.2] at hle
  omega

theorem Separator.IsPlain.atTop_append (hsep : sep.IsPlain) {text : List Char}
    (h : AtTop .char text) : AtTop .char (text ++ sep.toList) := by
  have hmark : ∀ c, isMark c = true → c ∉ sep.toList := fun c hc hmem => by
    simpa [hc] using (hsep.1 c hmem).1
  rw [AtTop, List.count_append, List.count_eq_zero_of_not_mem (hmark _ rfl), Nat.add_zero,
    countOutside_append_of_not_mem _ _ (hmark _ rfl),
    countOutside_append_of_not_mem _ _ (hmark _ rfl)]
  exact h

/-- If a text of uncut parts is shallow, each part is balanced. -/
theorem balanced_of_mem_parts (hsep : sep.IsPlain) {parts : List (List Char)}
    (hparts : ∀ part ∈ parts, Uncut sep part)
    (hshallow : Shallow .char (sep.toList.intercalate parts)) :
    ∀ part ∈ parts, Balanced .char part := by
  induction parts with
  | nil => exact List.forall_mem_nil _
  | cons part parts ih =>
    rw [List.forall_mem_cons] at hparts ⊢
    cases parts with
    | nil =>
      rw [List.intercalate_singleton] at hshallow
      exact ⟨hparts.1.balanced hshallow, List.forall_mem_nil _⟩
    | cons next parts =>
      rw [List.intercalate_cons_cons, List.append_assoc] at hshallow
      have hpart := hparts.1.balanced (hshallow.of_isPrefix (List.prefix_append _ _))
      rw [← List.append_assoc] at hshallow
      exact ⟨hpart, ih hparts.2 (hshallow.of_append (hsep.atTop_append hpart.atTop))⟩

/-- Where reading comes to the top, nothing stops it. -/
theorem not_stops_of_walk {text : List Char} (h : walk stops n text = some m) {i : Nat}
    (htop : (text.take i).foldlM Nesting.step n = some .top) {c : Char} {after : List Char}
    (hafter : text.drop i = c :: after) : stops c after = false := by
  induction text generalizing n i with
  | nil => simp at hafter
  | cons d text ih =>
    rw [walk] at h
    split at h
    · cases h
    · next hstops =>
      obtain ⟨k, hk, hrest⟩ := Option.bind_eq_some_iff.1 h
      cases i with
      | zero =>
        cases hafter
        cases htop
        simpa using hstops
      | succ i =>
        simp only [List.take_succ_cons, List.foldlM_cons, hk, Option.bind_eq_bind,
          Option.bind_some] at htop
        exact ih hrest htop hafter

/-- The separator stands at a place where reading comes to the top. -/
def Cuts (sep : Separator) (text : List Char) (i : Nat) : Prop :=
  sep.toList <+: text.drop i ∧ (text.take i).foldlM Nesting.step .top = some .top

theorem Balanced.cuts_iff {text : List Char} (h : Balanced .char text)
    (hshallow : Shallow .char text) (i : Nat) :
    Cuts sep text i ↔ CutAt .char sep.toList text i :=
  and_congr_right fun _ => h.foldlM_step_take_iff hshallow i

theorem startsAt_of_isPrefix {c : Char} {after : List Char} (h : sep.toList <+: c :: after) :
    sep.startsAt c after = true := by
  obtain ⟨rfl, hrest⟩ := List.cons_prefix_cons.1 h
  simp [Separator.startsAt, hrest]

/-- An uncut text is cut nowhere. -/
theorem Uncut.not_cuts {text : List Char} (h : Uncut sep text) (i : Nat) : ¬Cuts sep text i := by
  rintro ⟨hsep, htop⟩
  cases hafter : text.drop i with
  | nil =>
    rw [hafter, List.prefix_nil] at hsep
    cases hsep
  | cons c after =>
    rw [hafter] at hsep
    have hstart := startsAt_of_isPrefix hsep
    rw [not_stops_of_walk h htop hafter] at hstart
    cases hstart

theorem cuts_append_iff {before : List Char} (h : before.foldlM Nesting.step .top = some .top)
    (rest : List Char) (j : Nat) :
    Cuts sep (before ++ rest) (before.length + j) ↔ Cuts sep rest j := by
  rw [Cuts, List.drop_length_add_append, List.take_length_add_append, List.foldlM_append, h]
  rfl

/-- Separators do not overlap. -/
theorem cuts_toList_append_iff (hsep : sep.IsPlain) (rest : List Char) (i : Nat) :
    Cuts sep (sep.toList ++ rest) i ↔ i = 0 ∨ ∃ j, i = sep.toList.length + j ∧ Cuts sep rest j := by
  have hread : sep.toList.foldlM Nesting.step .top = some .top :=
    foldlM_step_of_not_mark (fun c hc => (hsep.1 c hc).1) _
  constructor
  · intro hcut
    cases i with
    | zero => exact .inl rfl
    | succ i =>
      rcases Nat.lt_or_ge i sep.rest.length with hlt | hge
      · -- the first character of the separator would come again in it
        exfalso
        have hat := hcut.1
        rw [Separator.toList, List.cons_append, List.drop_succ_cons,
          List.drop_append_of_le_length (Nat.le_of_lt hlt), List.drop_eq_getElem_cons hlt,
          List.cons_append, List.cons_prefix_cons] at hat
        exact hsep.2 (hat.1 ▸ List.getElem_mem hlt)
      · obtain ⟨j, rfl⟩ := Nat.exists_eq_add_of_le hge
        have hlength : sep.rest.length + j + 1 = sep.toList.length + j := by
          rw [Separator.toList, List.length_cons]
          omega
        rw [hlength] at hcut ⊢
        exact .inr ⟨j, rfl, (cuts_append_iff hread rest j).1 hcut⟩
  · rintro (rfl | ⟨j, rfl, hcut⟩)
    · exact ⟨List.prefix_append _ _, rfl⟩
    · exact (cuts_append_iff hread rest j).2 hcut

/-- A text that begins with an uncut part and a separator is cut after the part, and then where
    the rest of it is. -/
theorem Uncut.cuts_append_iff (hsep : sep.IsPlain) {part : List Char} (h : Uncut sep part)
    (rest : List Char) (i : Nat) :
    Cuts sep (part ++ (sep.toList ++ rest)) i ↔
      i = part.length ∨ ∃ j, i = part.length + sep.toList.length + j ∧ Cuts sep rest j := by
  rcases Nat.lt_or_ge i part.length with hlt | hge
  · -- a separator that begins in the part would be found in the part alone
    refine iff_of_false ?_ (by omega)
    rintro ⟨hat, htop⟩
    rw [List.take_append_of_le_length (Nat.le_of_lt hlt)] at htop
    rw [List.drop_append_of_le_length (Nat.le_of_lt hlt)] at hat
    have hafter := List.drop_eq_getElem_cons hlt
    rw [hafter, List.cons_append] at hat
    have hstart := startsAt_of_isPrefix hat
    rw [startsAt_append (noContinuation_toList hsep rest), not_stops_of_walk h htop hafter]
      at hstart
    cases hstart
  · obtain ⟨i, rfl⟩ := Nat.exists_eq_add_of_le hge
    rw [Text.cuts_append_iff (foldlM_step_of_walk h), cuts_toList_append_iff hsep]
    simp only [Nat.add_assoc, Nat.add_eq_left, Nat.add_left_cancel_iff]

/-- A text of uncut parts is cut between them and nowhere else. -/
theorem cuts_intercalate_iff (hsep : sep.IsPlain) {parts : List (List Char)} (hne : parts ≠ [])
    (hparts : ∀ part ∈ parts, Uncut sep part) (i : Nat) :
    Cuts sep (sep.toList.intercalate parts) i ↔ ∃ k, 0 < k ∧ k < parts.length ∧
      i = (sep.toList.intercalate (parts.take k)).length := by
  induction parts generalizing i with
  | nil => exact absurd rfl hne
  | cons part parts ih =>
    obtain ⟨hpart, hparts⟩ := List.forall_mem_cons.1 hparts
    cases parts with
    | nil =>
      rw [List.intercalate_singleton]
      refine iff_of_false (hpart.not_cuts i) ?_
      rintro ⟨k, hpos, hlt, -⟩
      rw [List.length_singleton] at hlt
      omega
    | cons next parts =>
      rw [List.intercalate_cons_cons, List.append_assoc, hpart.cuts_append_iff hsep]
      constructor
      · rintro (rfl | ⟨j, rfl, hcut⟩)
        · exact ⟨1, by simp⟩
        · obtain ⟨k, hpos, hlt, rfl⟩ := (ih (List.cons_ne_nil _ _) hparts j).1 hcut
          obtain ⟨k, rfl⟩ := Nat.exists_eq_add_of_lt hpos
          refine ⟨k + 2, by omega, by simpa using hlt, ?_⟩
          simp [List.intercalate_cons_cons, Nat.add_assoc]
      · rintro ⟨k, hpos, hlt, rfl⟩
        rcases k with _ | _ | k
        · omega
        · exact .inl (by simp)
        · refine .inr ⟨_, ?_, (ih (List.cons_ne_nil _ _) hparts _).2
            ⟨k + 1, by omega, by simpa using hlt, rfl⟩⟩
          simp [List.intercalate_cons_cons, Nat.add_assoc]

theorem cutAt_iff_of_splitTopLevel (hsep : sep.IsPlain) {text : List Char}
    (hshallow : Shallow .char text) {parts : List (List Char)}
    (h : splitTopLevel sep text = .ok parts) (i : Nat) :
    CutAt .char sep.toList text i ↔ ∃ k, 0 < k ∧ k < parts.length ∧
      i = (sep.toList.intercalate (parts.take k)).length := by
  have hbalanced := (exists_splitTopLevel_iff hsep hshallow).1 ⟨parts, h⟩
  rw [← hbalanced.cuts_iff hshallow, ← cuts_intercalate_iff hsep (ne_nil_of_splitTopLevel hsep h)
    (uncut_of_mem_splitTopLevel hsep h), intercalate_of_splitTopLevel hsep h]

end Cuts

end HornOntology.Text
