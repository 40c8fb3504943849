import HornOntology.Text.Blank
import HornOntology.Text.TopLevel
import Mathlib.Data.List.Infix
import Mathlib.Data.List.TakeWhile

set_option autoImplicit false

/-! # What a split at the top level does

A text is read from left to right in a `Nesting`: how many parentheses are open, and whether a
literal is. `splitFrom_cons` is the one equation that opens `splitFrom`: at the top level a
separator cuts, and every other character moves the nesting on by one `step`.

`walk` reads a text without cutting. A text is `Uncut` if it leads from the top level back to it
with no separator on the way; splitting makes one part of it (`splitTopLevel_of_uncut`). The parts
of any split are uncut (`uncut_of_mem_splitTopLevel`), and texts that are uncut come back when they
are written with separators and blanks between them (`splitTopLevel_intercalate`).

The depth is a number of 32 bits, so a text that can be read at the top level need not be one that
can be read inside parentheses (`UncutInside`). What can be said is that two readings of one text
keep what each character keeps (`rel_of_walk`): where both succeed, they end as far from each other
as they began. -/

namespace HornOntology.Text

/-! ## Blanks around a text -/

/-- A text of blanks. -/
def Blank (text : List Char) : Prop := ∀ c ∈ text, isBlank c = true

theorem blank_nil : Blank [] := List.forall_mem_nil _

theorem blank_space : Blank [' '] := List.forall_mem_singleton.2 (by decide)

/-- There is nothing blank at the ends of a text. -/
def Trimmed (text : List Char) : Prop := trim text = text

instance (text : List Char) : Decidable (Trimmed text) :=
  inferInstanceAs (Decidable (trim text = text))

theorem exists_trim (text : List Char) :
    ∃ pre post, text = pre ++ trim text ++ post ∧ Blank pre ∧ Blank post := by
  refine ⟨text.takeWhile isBlank, ((trimLeft text).reverse.takeWhile isBlank).reverse, ?_, ?_, ?_⟩
  · rw [List.append_assoc, trim, trimRight, ← List.reverse_append,
      List.takeWhile_append_dropWhile, List.reverse_reverse, trimLeft,
      List.takeWhile_append_dropWhile]
  · exact fun c hc => List.mem_takeWhile_imp hc
  · exact fun c hc => List.mem_takeWhile_imp (List.mem_reverse.1 hc)

theorem trimLeft_append {pre text : List Char} (hpre : Blank pre) :
    trimLeft (pre ++ text) = trimLeft text :=
  List.dropWhile_append_of_pos hpre

theorem trimRight_append {text post : List Char} (hpost : Blank post) :
    trimRight (text ++ post) = trimRight text := by
  have hblank : ∀ c ∈ post.reverse, isBlank c = true := fun c hc => hpost c (List.mem_reverse.1 hc)
  rw [trimRight, List.reverse_append, List.dropWhile_append_of_pos hblank, trimRight]

theorem head?_trim {text : List Char} : ∀ c ∈ (trim text).head?, isBlank c = false := by
  intro c hc
  obtain ⟨blanks, hblanks⟩ : trim text <+: trimLeft text := by
    rw [← List.reverse_suffix, trim, trimRight, List.reverse_reverse]
    exact List.dropWhile_suffix _
  have hhead := List.head?_dropWhile_not isBlank text
  rw [show text.dropWhile isBlank = trim text ++ blanks from hblanks.symm, List.head?_append,
    Option.mem_def.1 hc] at hhead
  simpa using hhead

theorem getLast?_trim {text : List Char} : ∀ c ∈ (trim text).getLast?, isBlank c = false := by
  intro c hc
  have hhead := List.head?_dropWhile_not isBlank (trimLeft text).reverse
  rw [trim, trimRight, ← List.head?_reverse, List.reverse_reverse] at hc
  rw [Option.mem_def.1 hc] at hhead
  simpa using hhead

theorem trimmed_of_ends {text : List Char} (hhead : ∀ c ∈ text.head?, isBlank c = false)
    (hlast : ∀ c ∈ text.getLast?, isBlank c = false) : Trimmed text := by
  have hleft : trimLeft text = text := by
    cases text with
    | nil => rfl
    | cons c text => rw [trimLeft, List.dropWhile_cons_of_neg (by simp [hhead c rfl])]
  rw [Trimmed, trim, hleft, trimRight]
  cases hrev : text.reverse with
  | nil => simpa using hrev
  | cons c rest =>
    rw [← List.head?_reverse, hrev] at hlast
    rw [List.dropWhile_cons_of_neg (by simp [hlast c rfl]), ← hrev, List.reverse_reverse]

theorem trimmed_trim (text : List Char) : Trimmed (trim text) :=
  trimmed_of_ends head?_trim getLast?_trim

theorem Trimmed.head? {text : List Char} (h : Trimmed text) :
    ∀ c ∈ text.head?, isBlank c = false := by
  rw [← h]
  exact head?_trim

theorem Trimmed.trim_append {text : List Char} (h : Trimmed text) (hne : text ≠ [])
    (pre post : List Char) (hpre : Blank pre) (hpost : Blank post) :
    trim (pre ++ text ++ post) = text := by
  have hleft : trimLeft (text ++ post) = trimLeft text ++ post := by
    obtain ⟨c, rest, rfl⟩ := List.exists_cons_of_ne_nil hne
    have hc : isBlank c = false := h.head? c rfl
    rw [trimLeft, trimLeft, List.cons_append, List.dropWhile_cons_of_neg (by simp [hc]),
      List.dropWhile_cons_of_neg (by simp [hc]), List.cons_append]
  rw [List.append_assoc, trim, trimLeft_append hpre, hleft, trimRight_append hpost]
  exact h

theorem trim_ne_nil {text : List Char} {c : Char} (hc : c ∈ text) (hblank : isBlank c = false) :
    trim text ≠ [] := by
  intro hnil
  obtain ⟨pre, post, htext, hpre, hpost⟩ := exists_trim text
  rw [htext, hnil, List.append_nil, List.mem_append] at hc
  rcases hc with hc | hc
  · simp [hpre c hc] at hblank
  · simp [hpost c hc] at hblank

/-! ## Nesting -/

/-- How many parentheses are open, and whether a literal is. -/
structure Nesting where
  depth : Int32
  isQuoted : Bool
deriving DecidableEq

namespace Nesting

/-- Outside parentheses and literals. -/
def top : Nesting := ⟨0, false⟩

/-- Read one character. There is no nesting after a parenthesis that leaves the depth below zero. -/
def step (n : Nesting) (c : Char) : Option Nesting :=
  if c = '"' then some { n with isQuoted := !n.isQuoted }
  else if n.isQuoted then some n
  else if c = '(' then some { n with depth := n.depth + 1 }
  else if c = ')' then if n.depth - 1 < 0 then none else some { n with depth := n.depth - 1 }
  else some n

/-- The same nesting inside one more pair of parentheses. -/
def deeper (n : Nesting) : Nesting := { n with depth := n.depth + 1 }

end Nesting

/-- A character that opens or closes something. -/
def isMark (c : Char) : Bool := c == '"' || c == '(' || c == ')'

theorem Nesting.step_of_not_mark (n : Nesting) {c : Char} (hc : isMark c = false) :
    n.step c = some n := by
  simp only [isMark, Bool.or_eq_false_iff, beq_eq_false_iff_ne] at hc
  simp [step, hc]

theorem Nesting.deeper_of_step {n m k : Nesting} {c : Char} (h : n.step c = some m)
    (hdeeper : n.deeper.step c = some k) : k = m.deeper := by
  have hdepth : n.depth + 1 - 1 = n.depth - 1 + 1 := by
    rw [Int32.add_sub_cancel, Int32.sub_add_cancel]
  unfold deeper step at *
  grind

theorem Nesting.isQuoted_of_step {n n' m m' : Nesting} {c : Char} (h : n.step c = some m)
    (h' : n'.step c = some m') (hquoted : n'.isQuoted = !n.isQuoted) :
    m'.isQuoted = !m.isQuoted := by
  unfold step at h h'
  grind

/-! ## Separators -/

namespace Separator

/-- Whether a separator stands at a character, given the text after it. -/
def startsAt (sep : Separator) (c : Char) (text : List Char) : Bool :=
  c = sep.first && sep.rest.isPrefixOf text

/-- No character of a separator is a mark or blank, and its first one does not come again. -/
def IsPlain (sep : Separator) : Prop :=
  (∀ c ∈ sep.toList, isMark c = false ∧ isBlank c = false) ∧ sep.first ∉ sep.rest

theorem arrow_isPlain : arrow.IsPlain :=
  ⟨List.forall_mem_cons.2 ⟨by decide, List.forall_mem_singleton.2 (by decide)⟩, by decide⟩

theorem caret_isPlain : caret.IsPlain := ⟨List.forall_mem_singleton.2 (by decide), by decide⟩

theorem comma_isPlain : comma.IsPlain := ⟨List.forall_mem_singleton.2 (by decide), by decide⟩

theorem IsPlain.startsAt_of_isMark {sep : Separator} (hsep : sep.IsPlain) {c : Char}
    (hc : isMark c = true) (text : List Char) : sep.startsAt c text = false := by
  refine Bool.eq_false_iff.2 fun hstart => ?_
  simp only [startsAt, Bool.and_eq_true, decide_eq_true_eq] at hstart
  have hfirst := (hsep.1 c (hstart.1 ▸ List.mem_cons_self)).1
  simp [hc] at hfirst

end Separator

/-! ## The equation of splitting -/

theorem splitFrom_cons {sep : Separator} (hsep : sep.IsPlain) (n : Nesting) (current : List Char)
    (c : Char) (text : List Char) :
    splitFrom sep n.depth n.isQuoted current (c :: text) =
      if n = .top ∧ sep.startsAt c text then
        (splitTopLevel sep (text.drop sep.rest.length)).map (current.reverse :: ·)
      else
        match n.step c with
        | none => .error .strayClose
        | some m => splitFrom sep m.depth m.isQuoted (c :: current) text := by
  obtain ⟨depth, isQuoted⟩ := n
  by_cases hmark : isMark c
  · rw [hsep.startsAt_of_isMark hmark, splitFrom.eq_def]
    simp only [isMark, Bool.or_eq_true, beq_iff_eq] at hmark
    grind [Nesting.step]
  · have hne := hmark
    simp only [isMark, Bool.or_eq_true, beq_iff_eq, not_or] at hne
    rw [Nesting.step_of_not_mark _ (Bool.eq_false_iff.2 hmark), splitFrom.eq_def]
    cases isQuoted with
    | true => simp [hne, Nesting.top]
    | false =>
      simp only [hne, if_false, Bool.false_eq_true, Nesting.top, Nesting.mk.injEq, and_true,
        Separator.startsAt, Bool.and_eq_true, decide_eq_true_eq]
      split
      · next h =>
        rw [h.1, splitTopLevel]
        cases splitFrom sep 0 false [] (text.drop sep.rest.length) <;> rfl
      · rfl

/-! ## Walking over a text -/

/-- Read a text without cutting it, and give up at a place at the top level where `stops` holds. -/
def walk (stops : Char → List Char → Bool) : Nesting → List Char → Option Nesting
  | n, [] => some n
  | n, c :: text => if n = .top ∧ stops c text then none else (n.step c).bind (walk stops · text)

section Walk

variable {stops : Char → List Char → Bool} {sep : Separator} {n m : Nesting}

/-- What holds between two readings of one text at its beginning holds at its end, if each character
    keeps it. -/
theorem rel_of_walk {R : Nesting → Nesting → Prop} {stops' : Char → List Char → Bool}
    (hstep : ∀ {n n' m m' : Nesting} {c : Char}, n.step c = some m → n'.step c = some m' →
      R n n' → R m m')
    {n' m' : Nesting} {text : List Char} (h : walk stops n text = some m)
    (h' : walk stops' n' text = some m') (hR : R n n') : R m m' := by
  induction text generalizing n n' with
  | nil =>
    cases h
    cases h'
    exact hR
  | cons c text ih =>
    rw [walk] at h h'
    split at h
    · cases h
    split at h'
    · cases h'
    obtain ⟨k, hk, hrest⟩ := Option.bind_eq_some_iff.1 h
    obtain ⟨k', hk', hrest'⟩ := Option.bind_eq_some_iff.1 h'
    exact ih hrest hrest' (hstep hk hk' hR)

theorem eq_of_walk {stops' : Char → List Char → Bool} {k : Nesting} {text : List Char}
    (h : walk stops n text = some m) (h' : walk stops' n text = some k) : k = m := by
  refine rel_of_walk (R := fun n n' => n' = n) ?_ h h' rfl
  rintro n n' m m' c hm hm' rfl
  exact Option.some.inj (hm'.symm.trans hm)

theorem eq_deeper_of_walk {stops' : Char → List Char → Bool} {k : Nesting} {text : List Char}
    (h : walk stops n text = some m) (h' : walk stops' n.deeper text = some k) :
    k = m.deeper := by
  refine rel_of_walk (R := fun n n' => n' = n.deeper) ?_ h h' rfl
  rintro n n' m m' c hm hm' rfl
  exact Nesting.deeper_of_step hm hm'

/-- A text whose first character continues no separator. -/
def NoContinuation (sep : Separator) (text : List Char) : Prop :=
  ∀ c ∈ text.head?, c ∉ sep.rest

theorem isPrefixOf_append_of_noContinuation {l text rest : List Char}
    (h : ∀ c ∈ rest.head?, c ∉ l) : l.isPrefixOf (text ++ rest) = l.isPrefixOf text := by
  induction l generalizing text with
  | nil => simp
  | cons x l ih =>
    cases text with
    | cons y text =>
      rw [List.cons_append, List.isPrefixOf_cons_cons, List.isPrefixOf_cons_cons,
        ih (fun c hc hl => h c hc (List.mem_cons_of_mem _ hl))]
    | nil =>
      cases rest with
      | nil => rfl
      | cons y rest =>
        have hxy : (x == y) = false :=
          beq_false_of_ne (fun hxy => h y rfl (hxy ▸ List.mem_cons_self))
        rw [List.nil_append, List.isPrefixOf_cons_cons, hxy, Bool.false_and,
          List.isPrefixOf_cons_nil]

theorem startsAt_append {c : Char} {text rest : List Char} (h : NoContinuation sep rest) :
    sep.startsAt c (text ++ rest) = sep.startsAt c text := by
  rw [Separator.startsAt, isPrefixOf_append_of_noContinuation h, Separator.startsAt]

theorem walk_append {text rest : List Char} (h : NoContinuation sep rest) :
    walk sep.startsAt n (text ++ rest) =
      (walk sep.startsAt n text).bind (walk sep.startsAt · rest) := by
  induction text generalizing n with
  | nil => rw [List.nil_append, walk, Option.bind_some]
  | cons c text ih =>
    rw [List.cons_append, walk, walk, startsAt_append h]
    split
    · rfl
    · rw [Option.bind_assoc]
      exact Option.bind_congr fun k _ => ih

/-- A character that neither opens, closes nor separates anything. -/
def Separator.Ignores (sep : Separator) (c : Char) : Prop := isMark c = false ∧ c ≠ sep.first

instance (sep : Separator) (c : Char) : Decidable (sep.Ignores c) :=
  inferInstanceAs (Decidable (_ ∧ _))

theorem Separator.IsPlain.ignores_of_isBlank (hsep : sep.IsPlain) {c : Char}
    (hc : isBlank c = true) : sep.Ignores c := by
  constructor
  · refine Bool.eq_false_iff.2 fun hmark => ?_
    simp only [isMark, Bool.or_eq_true, beq_iff_eq] at hmark
    rcases hmark with (rfl | rfl) | rfl <;> exact absurd hc (by decide)
  · rintro rfl
    simpa [hc] using (hsep.1 _ List.mem_cons_self).2

theorem walk_append_of_ignores {text : List Char} (h : ∀ c ∈ text, sep.Ignores c)
    (rest : List Char) :
    walk sep.startsAt n (text ++ rest) = walk sep.startsAt n rest := by
  induction text with
  | nil => rfl
  | cons c text ih =>
    obtain ⟨hmark, hfirst⟩ := h c List.mem_cons_self
    rw [List.cons_append, walk, Nesting.step_of_not_mark n hmark, Option.bind_some,
      if_neg (by simp [Separator.startsAt, hfirst]), ih fun c hc => h c (List.mem_cons_of_mem _ hc)]

/-- Below the top level, a text that opens and closes nothing changes nothing. -/
theorem walk_of_not_mark (hn : n ≠ .top) {text : List Char}
    (hmark : ∀ c ∈ text, isMark c = false) : walk stops n text = some n := by
  induction text with
  | nil => rfl
  | cons c text ih =>
    rw [List.forall_mem_cons] at hmark
    rw [walk, if_neg (by simp [hn]), Nesting.step_of_not_mark n hmark.1, Option.bind_some,
      ih hmark.2]

end Walk

/-! ## Texts of one part -/

/-- Reading leads from the top level back to it and meets no separator there. -/
def Uncut (sep : Separator) (text : List Char) : Prop := walk sep.startsAt .top text = some .top

instance (sep : Separator) (text : List Char) : Decidable (Uncut sep text) :=
  inferInstanceAs (Decidable (_ = _))

/-- The same inside one pair of parentheses, where nothing is at the top level as long as the depth
    does not run over. -/
def UncutInside (sep : Separator) (text : List Char) : Prop :=
  walk sep.startsAt Nesting.top.deeper text = some Nesting.top.deeper

instance (sep : Separator) (text : List Char) : Decidable (UncutInside sep text) :=
  inferInstanceAs (Decidable (_ = _))

section Uncut

variable {sep : Separator} {n m : Nesting}

theorem splitFrom_append (hsep : sep.IsPlain) (current : List Char) {text rest : List Char}
    (hrest : NoContinuation sep rest) (h : walk sep.startsAt n text = some m) :
    splitFrom sep n.depth n.isQuoted current (text ++ rest) =
      splitFrom sep m.depth m.isQuoted (text.reverse ++ current) rest := by
  induction text generalizing n current with
  | nil =>
    rw [Option.some.inj h, List.nil_append, List.reverse_nil, List.nil_append]
  | cons c text ih =>
    rw [walk] at h
    split at h
    · cases h
    · next hstart =>
      obtain ⟨k, hk, hwalk⟩ := Option.bind_eq_some_iff.1 h
      rw [List.cons_append, splitFrom_cons hsep, startsAt_append hrest, if_neg hstart, hk]
      dsimp only
      rw [ih _ hwalk, List.reverse_cons, List.append_assoc, List.singleton_append]

theorem splitTopLevel_of_uncut (hsep : sep.IsPlain) {text : List Char} (h : Uncut sep text) :
    splitTopLevel sep text = .ok [text] := by
  have happend := splitFrom_append hsep [] (show NoContinuation sep [] by simp [NoContinuation]) h
  rw [List.append_nil, List.append_nil] at happend
  rw [splitTopLevel]
  refine happend.trans ?_
  simp [splitFrom, Nesting.top]

theorem noContinuation_toList (hsep : sep.IsPlain) (rest : List Char) :
    NoContinuation sep (sep.toList ++ rest) := by
  intro c hc
  cases hc
  exact hsep.2

/-- A separator after an uncut text cuts it off. -/
theorem splitTopLevel_cut (hsep : sep.IsPlain) {text : List Char} (h : Uncut sep text)
    (rest : List Char) : splitTopLevel sep (text ++ (sep.toList ++ rest)) =
      (splitTopLevel sep rest).map (text :: ·) := by
  have hstart : sep.startsAt sep.first (sep.rest ++ rest) = true := by
    simp [Separator.startsAt]
  rw [splitTopLevel]
  refine (splitFrom_append hsep [] (noContinuation_toList hsep rest) h).trans ?_
  rw [Separator.toList, List.cons_append, splitFrom_cons hsep, hstart, if_pos ⟨rfl, rfl⟩,
    List.drop_left, List.append_nil, List.reverse_reverse]

/-- The first part of what is left continues the current one, and all parts are uncut. -/
theorem exists_of_splitFrom_eq_ok (hsep : sep.IsPlain) (current : List Char) {text : List Char}
    {parts : List (List Char)}
    (h : splitFrom sep n.depth n.isQuoted current text = .ok parts) :
    ∃ first others, parts = (current.reverse ++ first) :: others ∧ first <+: text ∧
      walk sep.startsAt n first = some .top ∧ ∀ part ∈ others, Uncut sep part := by
  -- on the length: after a separator reading goes on several characters further
  induction hlen : text.length using Nat.strong_induction_on generalizing n current text parts with
  | _ length ih =>
    cases text with
    | nil =>
      have hn : n = .top ∧ parts = [current.reverse] := by
        unfold splitFrom at h
        obtain ⟨depth, isQuoted⟩ := n
        grind [Nesting.top]
      obtain ⟨rfl, rfl⟩ := hn
      exact ⟨[], [], by simp, List.prefix_refl _, rfl, by simp⟩
    | cons c text =>
      rw [splitFrom_cons hsep] at h
      split at h
      · next hstart =>
        cases hrest : splitTopLevel sep (text.drop sep.rest.length) with
        | error e => simp [hrest, Except.map] at h
        | ok tail =>
          rw [hrest] at h
          cases h
          have hshorter : (text.drop sep.rest.length).length < length := by
            rw [← hlen, List.length_drop, List.length_cons]
            omega
          obtain ⟨first, others, rfl, -, hfirst, hothers⟩ :=
            ih _ hshorter (n := .top) [] hrest rfl
          refine ⟨[], first :: others, by simp, List.nil_prefix, by rw [hstart.1]; rfl, ?_⟩
          exact List.forall_mem_cons.2 ⟨hfirst, hothers⟩
      · next hstart =>
        cases hstep : n.step c with
        | none => simp [hstep] at h
        | some m =>
          rw [hstep] at h
          obtain ⟨first, others, rfl, hprefix, hfirst, hothers⟩ :=
            ih text.length (by rw [← hlen, List.length_cons]; omega) _ h rfl
          refine ⟨c :: first, others, by simp, ?_, ?_, hothers⟩
          · exact List.cons_prefix_cons.2 ⟨rfl, hprefix⟩
          · rw [walk, if_neg ?_, hstep, Option.bind_some, hfirst]
            rintro ⟨htop, hfirst⟩
            refine hstart ⟨htop, ?_⟩
            simp only [Separator.startsAt, Bool.and_eq_true, List.isPrefixOf_iff_prefix] at hfirst ⊢
            exact ⟨hfirst.1, hfirst.2.trans hprefix⟩

/-- The parts of a split are uncut. -/
theorem uncut_of_mem_splitTopLevel (hsep : sep.IsPlain) {text : List Char}
    {parts : List (List Char)} (h : splitTopLevel sep text = .ok parts) :
    ∀ part ∈ parts, Uncut sep part := by
  obtain ⟨first, others, rfl, -, hfirst, hothers⟩ := exists_of_splitFrom_eq_ok (n := .top) hsep [] h
  exact List.forall_mem_cons.2 ⟨hfirst, hothers⟩

theorem ne_nil_of_splitTopLevel (hsep : sep.IsPlain) {text : List Char}
    {parts : List (List Char)} (h : splitTopLevel sep text = .ok parts) : parts ≠ [] := by
  obtain ⟨first, others, rfl, -⟩ := exists_of_splitFrom_eq_ok (n := .top) hsep [] h
  exact List.cons_ne_nil _ _

/-! ## Blanks and separators between uncut texts -/

theorem noContinuation_of_blank (hsep : sep.IsPlain) {text : List Char} (h : Blank text) :
    NoContinuation sep text := by
  intro c hc hrest
  have := (hsep.1 c (List.mem_cons_of_mem _ hrest)).2
  simp [h c (List.mem_of_mem_head? hc)] at this

/-- Blanks around a text make no difference. -/
theorem walk_append_blank (hsep : sep.IsPlain) (pre post : List Char) {text : List Char}
    (hpre : Blank pre) (hpost : Blank post) :
    walk sep.startsAt n (pre ++ text ++ post) = walk sep.startsAt n text := by
  have hskip : ∀ k, walk sep.startsAt k post = some k := fun k => by
    simpa [walk] using
      walk_append_of_ignores (fun c hc => hsep.ignores_of_isBlank (hpost c hc)) []
  rw [List.append_assoc, walk_append_of_ignores (fun c hc => hsep.ignores_of_isBlank (hpre c hc)),
    walk_append (noContinuation_of_blank hsep hpost)]
  simp only [hskip, Option.bind_fun_some]

theorem uncut_append_iff (hsep : sep.IsPlain) (pre post : List Char) {text : List Char}
    (hpre : Blank pre) (hpost : Blank post) :
    Uncut sep (pre ++ text ++ post) ↔ Uncut sep text := by
  rw [Uncut, walk_append_blank hsep _ _ hpre hpost, Uncut]

theorem walk_trim (hsep : sep.IsPlain) (text : List Char) :
    walk sep.startsAt n (trim text) = walk sep.startsAt n text := by
  obtain ⟨pre, post, htext, hpre, hpost⟩ := exists_trim text
  conv_rhs => rw [htext]
  rw [walk_append_blank hsep _ _ hpre hpost]

theorem Uncut.trim (hsep : sep.IsPlain) {text : List Char} (h : Uncut sep text) :
    Uncut sep (trim text) := by
  rw [Uncut, walk_trim hsep]
  exact h

theorem UncutInside.trim (hsep : sep.IsPlain) {text : List Char} (h : UncutInside sep text) :
    UncutInside sep (Text.trim text) := by
  rw [UncutInside, walk_trim hsep]
  exact h

/-- Uncut texts that are written with blanks and a separator between them come back, without the
    blanks. -/
theorem splitTopLevel_intercalate (hsep : sep.IsPlain) {parts : List (List Char)}
    (hne : parts ≠ []) (hparts : ∀ part ∈ parts, part ≠ [] ∧ Trimmed part ∧ Uncut sep part)
    (pre before after post : List Char) (hpre : Blank pre)
    (hbefore : Blank before) (hafter : Blank after)
    (hpost : Blank post) :
    ∃ found, splitTopLevel sep
        (pre ++ (before ++ sep.toList ++ after).intercalate parts ++ post) = .ok found ∧
      found.map trim = parts := by
  induction parts generalizing pre with
  | nil => exact absurd rfl hne
  | cons part parts ih =>
    obtain ⟨hpne, htrim, huncut⟩ := hparts part List.mem_cons_self
    cases parts with
    | nil =>
      rw [List.intercalate_singleton]
      refine ⟨_, splitTopLevel_of_uncut hsep ((uncut_append_iff hsep _ _ hpre hpost).2 huncut), ?_⟩
      rw [List.map_singleton, htrim.trim_append hpne _ _ hpre hpost]
    | cons next parts =>
      obtain ⟨found, hfound, htrims⟩ := ih (List.cons_ne_nil _ _)
        (fun p hp => hparts p (List.mem_cons_of_mem _ hp)) after hafter
      have hcut : pre ++ (before ++ sep.toList ++ after).intercalate (part :: next :: parts) ++
            post = (pre ++ part ++ before) ++ (sep.toList ++
              (after ++ (before ++ sep.toList ++ after).intercalate (next :: parts) ++ post)) := by
        rw [List.intercalate_cons_cons]
        simp only [List.append_assoc]
      refine ⟨(pre ++ part ++ before) :: found, ?_, ?_⟩
      · have huncut' := (uncut_append_iff hsep _ _ hpre hbefore).2 huncut
        rw [hcut, splitTopLevel_cut hsep huncut', hfound]
        rfl
      · rw [List.map_cons, htrim.trim_append hpne _ _ hpre hbefore, htrims]

/-! ## Lists and applications -/

/-- Texts that can be read one by one can be read with a glue between them that separates
    nothing. -/
theorem walk_intercalate {first : Char} {glue : List Char}
    (hglue : ∀ c ∈ first :: glue, sep.Ignores c) (hfirst : first ∉ sep.rest)
    {parts : List (List Char)} (hparts : ∀ part ∈ parts, walk sep.startsAt n part = some n) :
    walk sep.startsAt n ((first :: glue).intercalate parts) = some n := by
  induction parts with
  | nil => rfl
  | cons part parts ih =>
    have hpart := hparts part List.mem_cons_self
    cases parts with
    | nil => rwa [List.intercalate_singleton]
    | cons next parts =>
      have hhead : NoContinuation sep
          (first :: glue ++ (first :: glue).intercalate (next :: parts)) := by
        rintro c ⟨⟩
        exact hfirst
      rw [List.intercalate_cons_cons, List.append_assoc, walk_append hhead, hpart,
        Option.bind_some, walk_append_of_ignores hglue,
        ih fun p hp => hparts p (List.mem_cons_of_mem _ hp)]

/-- If texts with such a glue between them can be read, each of them can, provided that none of them
    leads anywhere else. -/
theorem walk_of_walk_intercalate {first : Char} {glue : List Char}
    (hglue : ∀ c ∈ first :: glue, sep.Ignores c) (hfirst : first ∉ sep.rest)
    {parts : List (List Char)}
    (hstay : ∀ part ∈ parts, ∀ k, walk sep.startsAt n part = some k → k = n)
    (h : walk sep.startsAt n ((first :: glue).intercalate parts) = some m) :
    ∀ part ∈ parts, walk sep.startsAt n part = some n := by
  induction parts with
  | nil => exact List.forall_mem_nil _
  | cons part parts ih =>
    rw [List.forall_mem_cons] at hstay ⊢
    cases parts with
    | nil =>
      rw [List.intercalate_singleton] at h
      exact ⟨hstay.1 m h ▸ h, List.forall_mem_nil _⟩
    | cons next parts =>
      have hhead : NoContinuation sep
          (first :: glue ++ (first :: glue).intercalate (next :: parts)) := by
        rintro c ⟨⟩
        exact hfirst
      rw [List.intercalate_cons_cons, List.append_assoc, walk_append hhead] at h
      obtain ⟨k, hk, hrest⟩ := Option.bind_eq_some_iff.1 h
      obtain rfl := hstay.1 k hk
      rw [walk_append_of_ignores hglue] at hrest
      exact ⟨hk, ih hstay.2 hrest⟩

/-- Nothing inside parentheses is cut. -/
theorem uncut_application (hsep : sep.IsPlain) {name inner : List Char} (hname : Uncut sep name)
    (hinner : UncutInside sep inner) : Uncut sep (name ++ '(' :: (inner ++ [')'])) := by
  have hmark : ∀ c, isMark c = true → c ∉ sep.rest := fun c hc hrest => by
    simpa [hc] using (hsep.1 c (List.mem_cons_of_mem _ hrest)).1
  have hopen : NoContinuation sep ('(' :: (inner ++ [')'])) := by
    rintro c ⟨⟩
    exact hmark _ rfl
  have hclose : NoContinuation sep [')'] := by
    rintro c ⟨⟩
    exact hmark _ rfl
  rw [Uncut, walk_append hopen, hname, Option.bind_some, walk,
    hsep.startsAt_of_isMark rfl, if_neg (by simp)]
  change walk sep.startsAt Nesting.top.deeper (inner ++ [')']) = _
  rw [walk_append hclose, hinner]
  rfl

theorem depth_eq_zero_of_walk {stops : Char → List Char → Bool} {text : List Char}
    (hopen : '(' ∉ text) (h : walk stops n text = some m) (hn : n.depth = 0) : m.depth = 0 := by
  induction text generalizing n with
  | nil =>
    cases h
    exact hn
  | cons c text ih =>
    rw [List.mem_cons, not_or] at hopen
    rw [walk] at h
    split at h
    · cases h
    obtain ⟨k, hk, hrest⟩ := Option.bind_eq_some_iff.1 h
    refine ih hopen.2 hrest ?_
    have hclose : n.depth - 1 < 0 := by
      rw [hn]
      decide
    unfold Nesting.step at hk
    grind

/-- If an application can be read and its inside can be read by itself, the inside can be read where
    it stands: the name cannot have opened a literal, for the inside would not end it. -/
theorem uncutInside_of_uncut_application (hsep : sep.IsPlain) {stops : Char → List Char → Bool}
    {name inner : List Char} (hname : '(' ∉ name)
    (h : Uncut sep (name ++ '(' :: (inner ++ [')'])))
    (hinner : walk stops .top inner = some .top) : UncutInside sep inner := by
  have hmark : ∀ c, isMark c = true → c ∉ sep.rest := fun c hc hrest => by
    simpa [hc] using (hsep.1 c (List.mem_cons_of_mem _ hrest)).1
  have hopen : NoContinuation sep ('(' :: (inner ++ [')'])) := by
    rintro c ⟨⟩
    exact hmark _ rfl
  have hclose : NoContinuation sep [')'] := by
    rintro c ⟨⟩
    exact hmark _ rfl
  rw [Uncut, walk_append hopen] at h
  obtain ⟨⟨depth, isQuoted⟩, hbefore, h⟩ := Option.bind_eq_some_iff.1 h
  obtain rfl : depth = 0 := depth_eq_zero_of_walk hname hbefore rfl
  rw [walk, hsep.startsAt_of_isMark rfl, if_neg (by simp)] at h
  cases isQuoted with
  | false =>
    change walk sep.startsAt Nesting.top.deeper (inner ++ [')']) = some .top at h
    rw [walk_append hclose] at h
    obtain ⟨k, hk, -⟩ := Option.bind_eq_some_iff.1 h
    obtain rfl := eq_deeper_of_walk hinner hk
    exact hk
  | true =>
    change walk sep.startsAt ⟨0, true⟩ (inner ++ [')']) = some .top at h
    rw [walk_append hclose] at h
    obtain ⟨k, hk, hlast⟩ := Option.bind_eq_some_iff.1 h
    have hquoted : k.isQuoted = true :=
      rel_of_walk (R := fun n n' => n'.isQuoted = !n.isQuoted) Nesting.isQuoted_of_step hinner hk
        rfl
    exfalso
    simp [walk, Nesting.step, hquoted, Nesting.top] at hlast
    simp [hlast.2] at hquoted

end Uncut

end HornOntology.Text
