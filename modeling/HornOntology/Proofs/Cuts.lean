import HornOntology.Proofs.Balance
import HornOntology.Proofs.Reading

set_option autoImplicit false

/-! # Cuts in characters and in bytes

Separators, quotes and parentheses are ASCII characters, and in UTF-8 the byte of such a character
stands for nothing else. So a text may be read as its bytes: they nest as the characters do
(`atTop_utf8_iff`), and a separator among the bytes stands where it stands among the characters
(`cutAt_utf8_iff`), never inside a character.

The main result says all of `splitTopLevel` for the three separators of rule texts
(`splitTopLevel_exact`). What it says of balance and of cuts needs a text that is nowhere more than
`2 ^ 31` parentheses deep, for the reader counts them in 32 bits; beyond that a balanced text is
refused, and an unbalanced one may be accepted (`splitTopLevel_too_deep`). -/

namespace HornOntology.Text

/-! ## UTF-8 -/

/-- The bytes of a text. -/
def utf8 (text : List Char) : List UInt8 := text.flatMap String.utf8EncodeChar

theorem utf8_append (text more : List Char) : utf8 (text ++ more) = utf8 text ++ utf8 more :=
  List.flatMap_append

theorem utf8_cons (c : Char) (text : List Char) :
    utf8 (c :: text) = String.utf8EncodeChar c ++ utf8 text :=
  List.flatMap_cons

/-- A character that is one byte, the same in every encoding. -/
def IsAscii (c : Char) : Prop := c.toNat < 128

instance (c : Char) : Decidable (IsAscii c) := inferInstanceAs (Decidable (_ < _))

theorem IsAscii.toNat_toUInt8 {c : Char} (h : IsAscii c) : c.toUInt8.toNat = c.toNat :=
  Nat.mod_eq_of_lt (Nat.lt_trans h (by decide))

theorem IsAscii.toUInt8_inj {c d : Char} (hc : IsAscii c) (hd : IsAscii d) :
    c.toUInt8 = d.toUInt8 ↔ c = d := by
  constructor
  · intro h
    rw [← Char.toNat_inj, ← hc.toNat_toUInt8, ← hd.toNat_toUInt8, h]
  · rintro rfl
    rfl

/-- A character is one byte below 128, or several bytes that are not. -/
theorem utf8EncodeChar_cases (c : Char) :
    IsAscii c ∧ String.utf8EncodeChar c = [c.toUInt8] ∨
      ¬IsAscii c ∧ ∀ b ∈ String.utf8EncodeChar c, 128 ≤ b.toNat := by
  have hval : c.val.toNat = c.toNat := rfl
  unfold String.utf8EncodeChar IsAscii
  by_cases hascii : c.toNat < 128
  · refine .inl ⟨hascii, ?_⟩
    rw [if_pos (by omega), hval]
    rfl
  · refine .inr ⟨hascii, ?_⟩
    rw [if_neg (by omega)]
    split_ifs <;> simp <;> omega

theorem IsAscii.utf8EncodeChar_eq {c : Char} (h : IsAscii c) :
    String.utf8EncodeChar c = [c.toUInt8] := by
  rcases utf8EncodeChar_cases c with ⟨-, hbytes⟩ | ⟨hnot, -⟩
  · exact hbytes
  · exact absurd h hnot

theorem IsAscii.not_mem_utf8EncodeChar {a c : Char} (ha : IsAscii a)
    (hc : ∀ b ∈ String.utf8EncodeChar c, 128 ≤ b.toNat) :
    a.toUInt8 ∉ String.utf8EncodeChar c := by
  intro hmem
  have hle := hc _ hmem
  rw [ha.toNat_toUInt8] at hle
  exact absurd hle (Nat.not_le_of_lt ha)

/-! ## Reading the bytes -/

/-- The marks among the bytes. -/
def Marks.byte : Marks UInt8 := ⟨'"'.toUInt8, '('.toUInt8, ')'.toUInt8⟩

theorem count_utf8 {a : Char} (ha : IsAscii a) (text : List Char) :
    (utf8 text).count a.toUInt8 = text.count a := by
  induction text with
  | nil => rfl
  | cons c text ih =>
    rw [utf8_cons, List.count_append, ih, List.count_cons]
    rcases utf8EncodeChar_cases c with ⟨hc, hbytes⟩ | ⟨hc, hbytes⟩
    · simp [hbytes, List.count_singleton, hc.toUInt8_inj ha, Nat.add_comm]
    · have hne : c ≠ a := fun heq => hc (heq ▸ ha)
      simp [List.count_eq_zero_of_not_mem (ha.not_mem_utf8EncodeChar hbytes), hne]

theorem count_quote_utf8 (text : List Char) :
    (utf8 text).count Marks.byte.quote = text.count Marks.char.quote :=
  count_utf8 (by decide) text

theorem countOutside_utf8 {a : Char} (ha : IsAscii a) (text : List Char) :
    countOutside .byte a.toUInt8 (utf8 text) = countOutside .char a text := by
  induction text using List.reverseRecOn with
  | nil => rfl
  | append_singleton text c ih =>
    have hlast : utf8 [c] = String.utf8EncodeChar c := List.flatMap_singleton _ _
    rw [utf8_append, hlast, countOutside_concat]
    rcases utf8EncodeChar_cases c with ⟨hc, hbytes⟩ | ⟨hc, hbytes⟩
    · simp only [hbytes, countOutside_concat, ih, hc.toUInt8_inj ha, count_quote_utf8]
    · have hne : c ≠ a := fun heq => hc (heq ▸ ha)
      rw [countOutside_append_of_not_mem _ _ (ha.not_mem_utf8EncodeChar hbytes), ih]
      simp [hne]

/-- Bytes nest as the characters do. -/
theorem atTop_utf8_iff (text : List Char) : AtTop .byte (utf8 text) ↔ AtTop .char text := by
  have hopening : countOutside .byte Marks.byte.opening (utf8 text) =
      countOutside .char Marks.char.opening text := countOutside_utf8 (by decide) text
  have hclosing : countOutside .byte Marks.byte.closing (utf8 text) =
      countOutside .char Marks.char.closing text := countOutside_utf8 (by decide) text
  rw [AtTop, AtTop, count_quote_utf8, hopening, hclosing]

/-- A word of ASCII characters is found among the bytes as it is among the characters. -/
theorem isPrefix_utf8_iff {word : List Char} (hword : ∀ c ∈ word, IsAscii c) (text : List Char) :
    utf8 word <+: utf8 text ↔ word <+: text := by
  induction word generalizing text with
  | nil => simp [utf8]
  | cons c word ih =>
    obtain ⟨hc, hword⟩ := List.forall_mem_cons.1 hword
    have hbyte := hc.utf8EncodeChar_eq
    cases text with
    | nil => simp [utf8, hbyte]
    | cons d text =>
      rw [utf8_cons, utf8_cons, hbyte, List.singleton_append, List.cons_prefix_cons]
      rcases utf8EncodeChar_cases d with ⟨hd, hbytes⟩ | ⟨hd, hbytes⟩
      · rw [hbytes, List.singleton_append, List.cons_prefix_cons, hc.toUInt8_inj hd,
          ih hword]
      · have hne : c ≠ d := fun heq => hd (heq ▸ hc)
        refine iff_of_false ?_ (fun h => hne h.1)
        cases hfirst : String.utf8EncodeChar d with
        | nil => exact absurd hfirst String.utf8EncodeChar_ne_nil
        | cons b bytes =>
          rw [List.cons_append, List.cons_prefix_cons]
          rintro ⟨rfl, -⟩
          exact hc.not_mem_utf8EncodeChar hbytes (hfirst ▸ List.mem_cons_self)

/-- A byte below 128 begins a character. -/
theorem exists_of_ascii_byte {text : List Char} {j : Nat} {b : UInt8}
    (hb : (utf8 text)[j]? = some b) (hlt : b.toNat < 128) :
    ∃ i, j = (utf8 (text.take i)).length := by
  induction text generalizing j with
  | nil => simp [utf8] at hb
  | cons c text ih =>
    rw [utf8_cons] at hb
    rcases Nat.lt_or_ge j (String.utf8EncodeChar c).length with hinside | hafter
    · rw [List.getElem?_append_left hinside] at hb
      rcases utf8EncodeChar_cases c with ⟨-, hbytes⟩ | ⟨-, hbytes⟩
      · rw [hbytes, List.length_singleton] at hinside
        exact ⟨0, by simp [utf8]; omega⟩
      · exact absurd (hbytes b (List.mem_of_getElem? hb)) (Nat.not_le_of_lt hlt)
    · rw [List.getElem?_append_right hafter] at hb
      obtain ⟨i, hi⟩ := ih hb
      refine ⟨i + 1, ?_⟩
      rw [List.take_succ_cons, utf8_cons, List.length_append, ← hi]
      omega

/-- Where a word of ASCII characters stands at the top of the bytes, it stands at the top of the
    text; no place inside a character is such a place. -/
theorem cutAt_utf8_iff {word : List Char} (hne : word ≠ []) (hword : ∀ c ∈ word, IsAscii c)
    (text : List Char) (j : Nat) :
    CutAt .byte (utf8 word) (utf8 text) j ↔
      ∃ i, j = (utf8 (text.take i)).length ∧ CutAt .char word text i := by
  have hplace (i : Nat) : CutAt .byte (utf8 word) (utf8 text) (utf8 (text.take i)).length ↔
      CutAt .char word text i := by
    have hsplit : utf8 text = utf8 (text.take i) ++ utf8 (text.drop i) := by
      rw [← utf8_append, List.take_append_drop]
    rw [CutAt, CutAt, hsplit, List.drop_left, List.take_left, isPrefix_utf8_iff hword,
      atTop_utf8_iff]
  constructor
  · intro hcut
    obtain ⟨i, rfl⟩ : ∃ i, j = (utf8 (text.take i)).length := by
      obtain ⟨c, word, rfl⟩ := List.exists_cons_of_ne_nil hne
      obtain ⟨hc, -⟩ := List.forall_mem_cons.1 hword
      obtain ⟨after, hafter⟩ := hcut.1
      rw [utf8_cons, hc.utf8EncodeChar_eq] at hafter
      have hfirst : (utf8 text)[j]? = some c.toUInt8 := by
        rw [← Nat.add_zero j, ← List.getElem?_drop, ← hafter]
        rfl
      exact exists_of_ascii_byte hfirst (by rw [hc.toNat_toUInt8]; exact hc)
    exact ⟨i, rfl, (hplace i).1 hcut⟩
  · rintro ⟨i, rfl, hcut⟩
    exact (hplace i).2 hcut

/-! ## The separators of rule texts -/

/-- The separators of rule texts. -/
def Separator.all : List Separator := [arrow, caret, comma]

theorem Separator.of_mem_all {sep : Separator} (h : sep ∈ Separator.all) :
    sep.IsPlain ∧ ∀ c ∈ sep.toList, IsAscii c := by
  simp only [all, List.mem_cons, List.not_mem_nil, or_false] at h
  rcases h with rfl | rfl | rfl
  · exact ⟨arrow_isPlain, List.forall_mem_cons.2
      ⟨by decide, List.forall_mem_singleton.2 (by decide)⟩⟩
  · exact ⟨caret_isPlain, List.forall_mem_singleton.2 (by decide)⟩
  · exact ⟨comma_isPlain, List.forall_mem_singleton.2 (by decide)⟩

theorem intercalate_take_isPrefix (sep : List Char) (parts : List (List Char)) (k : Nat) :
    sep.intercalate (parts.take k) <+: sep.intercalate parts := by
  induction parts generalizing k with
  | nil => simp
  | cons part parts ih =>
    rcases k with _ | _ | k
    · simp
    · cases parts with
      | nil => simp
      | cons next parts =>
        simp [List.intercalate_cons_cons, List.append_assoc]
    · cases parts with
      | nil => simp
      | cons next parts =>
        have hrest := ih (k + 1)
        rw [List.take_succ_cons] at hrest
        rw [List.take_succ_cons, List.take_succ_cons, List.intercalate_cons_cons,
          List.intercalate_cons_cons, List.prefix_append_right_inj]
        exact hrest

/-- What a split promises of its parts, whatever the text. -/
structure IsSplit (sep : Separator) (text : List Char) (parts : List (List Char)) : Prop where
  joined : sep.toList.intercalate parts = text
  alone : ∀ part ∈ parts, splitTopLevel sep part = .ok [part]
  again : ∀ part ∈ parts, ∀ other ∈ Separator.all, ∃ found, splitTopLevel other part = .ok found

/-- What it promises besides where the depth does not run over. -/
structure IsExactSplit (sep : Separator) (text : List Char) (parts : List (List Char)) : Prop where
  /-- The separator stands at the top after the first parts, however many, and nowhere else. -/
  cutAt_iff : ∀ i, CutAt .char sep.toList text i ↔
    ∃ k, 0 < k ∧ k < parts.length ∧ i = (sep.toList.intercalate (parts.take k)).length
  /-- Among the bytes it stands after the bytes of these parts, so between two characters. -/
  cutAt_utf8_iff : ∀ j, CutAt .byte (utf8 sep.toList) (utf8 text) j ↔
    ∃ k, 0 < k ∧ k < parts.length ∧ j = (utf8 (sep.toList.intercalate (parts.take k))).length
  balanced : ∀ part ∈ parts, Balanced .char part

section Split

variable {sep : Separator} {text : List Char} {parts : List (List Char)}

theorem exists_splitTopLevel_of_mem (hsep : sep.IsPlain) (h : splitTopLevel sep text = .ok parts)
    {part : List Char} (hpart : part ∈ parts) {other : Separator} (hother : other ∈ Separator.all) :
    ∃ found, splitTopLevel other part = .ok found :=
  (exists_splitTopLevel_iff_foldlM_step (Separator.of_mem_all hother).1).2
    (foldlM_step_of_walk (uncut_of_mem_splitTopLevel hsep h part hpart))

theorem isSplit_of_splitTopLevel (hsep : sep ∈ Separator.all)
    (h : splitTopLevel sep text = .ok parts) : IsSplit sep text parts := by
  obtain ⟨hplain, -⟩ := Separator.of_mem_all hsep
  have huncut := uncut_of_mem_splitTopLevel hplain h
  exact ⟨intercalate_of_splitTopLevel hplain h,
    fun part hpart => splitTopLevel_of_uncut hplain (huncut part hpart),
    fun part hpart other hother => exists_splitTopLevel_of_mem hplain h hpart hother⟩

theorem isExactSplit_of_splitTopLevel (hsep : sep ∈ Separator.all)
    (hshallow : Shallow .char text) (h : splitTopLevel sep text = .ok parts) :
    IsExactSplit sep text parts := by
  obtain ⟨hplain, hascii⟩ := Separator.of_mem_all hsep
  have hjoined := intercalate_of_splitTopLevel hplain h
  have hcut := cutAt_iff_of_splitTopLevel hplain hshallow h
  have hbalanced : ∀ part ∈ parts, Balanced .char part := by
    rw [← hjoined] at hshallow
    exact balanced_of_mem_parts hplain (uncut_of_mem_splitTopLevel hplain h) hshallow
  refine ⟨hcut, ?_, hbalanced⟩
  have htake (k : Nat) : text.take (sep.toList.intercalate (parts.take k)).length =
      sep.toList.intercalate (parts.take k) := by
    obtain ⟨rest, hrest⟩ := intercalate_take_isPrefix sep.toList parts k
    rw [← hjoined, ← hrest, List.take_left]
  have hne : sep.toList ≠ [] := List.cons_ne_nil _ _
  intro j
  rw [Text.cutAt_utf8_iff hne hascii]
  constructor
  · rintro ⟨i, rfl, hi⟩
    obtain ⟨k, hpos, hlt, rfl⟩ := (hcut i).1 hi
    exact ⟨k, hpos, hlt, by rw [htake]⟩
  · rintro ⟨k, hpos, hlt, rfl⟩
    exact ⟨_, by rw [htake], (hcut _).2 ⟨k, hpos, hlt, rfl⟩⟩

end Split

/-- The two sides of an arrow can be split at their carets. -/
theorem exists_split_of_sides {input : String} {body head : List Char}
    (h : RuleText.sides input = .ok (body, head)) {side : List Char} (hside : side ∈ [body, head]) :
    ∃ atoms, RuleText.split .caret side = .ok atoms := by
  have hcaret : Separator.caret ∈ Separator.all := by decide
  obtain ⟨atoms, hatoms⟩ := exists_splitTopLevel_of_mem Separator.arrow_isPlain
    (RuleText.splitTopLevel_of_sides h) hside hcaret
  exact ⟨atoms, by rw [RuleText.split, hatoms]; rfl⟩

/-- **Splitting a text at the top level.** For each separator of rule texts: a text that is nowhere
    more than `2 ^ 31` parentheses deep can be split exactly if it is balanced, it is then cut
    exactly where the separator stands outside parentheses and literals, also among the bytes, and
    each part is balanced. A balanced text that is deeper is refused. Of any text that is split, the
    parts give it back, each part alone is not cut again, and it can be split at every separator; so
    neither side of a rule's arrow is ever refused for its balance. -/
theorem splitTopLevel_exact {sep : Separator} (hsep : sep ∈ Separator.all) (text : List Char) :
    (Shallow .char text →
      ((∃ parts, splitTopLevel sep text = .ok parts) ↔ Balanced .char text) ∧
        ∀ parts, splitTopLevel sep text = .ok parts → IsExactSplit sep text parts) ∧
      (Balanced .char text →
        ((∃ parts, splitTopLevel sep text = .ok parts) ↔ Shallow .char text)) ∧
      (∀ parts, splitTopLevel sep text = .ok parts → IsSplit sep text parts) ∧
      ∀ input body head, RuleText.sides input = .ok (body, head) →
        ∀ side ∈ [body, head], ∃ atoms, RuleText.split .caret side = .ok atoms := by
  obtain ⟨hplain, -⟩ := Separator.of_mem_all hsep
  refine ⟨?_, ?_, ?_, ?_⟩
  · intro hshallow
    refine ⟨exists_splitTopLevel_iff hplain hshallow, fun parts h => ?_⟩
    exact isExactSplit_of_splitTopLevel hsep hshallow h
  · intro hbalanced
    exact hbalanced.exists_splitTopLevel_iff hplain
  · intro parts h
    exact isSplit_of_splitTopLevel hsep h
  · intro input body head h side hside
    exact exists_split_of_sides h hside

namespace QuotedArrow

/-- An atom with an arrow and a parenthesis in its literal. -/
def body : List Char := "né(\"a->(b\") ".toList

def head : List Char := " P(?x)".toList

/-- A rule text with one arrow at the top and one in a literal. -/
def text : List Char := body ++ (Separator.arrow.toList ++ head)

theorem splitTopLevel_text : splitTopLevel .arrow text = .ok [body, head] := by
  have hhead : Uncut .arrow head := by decide
  rw [text, splitTopLevel_cut Separator.arrow_isPlain (by decide),
    splitTopLevel_of_uncut Separator.arrow_isPlain hhead]
  rfl

end QuotedArrow

/-- Of the two arrows the one after twelve characters, which are thirteen bytes, is a cut. -/
theorem splitTopLevel_exact_quotedArrow :
    Separator.arrow ∈ Separator.all ∧ Shallow .char QuotedArrow.text ∧
      splitTopLevel .arrow QuotedArrow.text = .ok [QuotedArrow.body, QuotedArrow.head] ∧
      Balanced .char QuotedArrow.text ∧
      (∀ i, CutAt .char Separator.arrow.toList QuotedArrow.text i ↔ i = 12) ∧
      ∀ j, CutAt .byte (utf8 Separator.arrow.toList) (utf8 QuotedArrow.text) j ↔ j = 13 := by
  have hsep : Separator.arrow ∈ Separator.all := by decide
  have hshallow : Shallow .char QuotedArrow.text := shallow_of_length_le (by decide)
  obtain ⟨hbalanced, hsplit⟩ := (splitTopLevel_exact hsep QuotedArrow.text).1 hshallow
  have hparts := QuotedArrow.splitTopLevel_text
  have hcuts := hsplit _ hparts
  have hone (k : Nat) : 0 < k ∧ k < [QuotedArrow.body, QuotedArrow.head].length ↔ k = 1 := by
    rw [List.length_cons, List.length_singleton]
    omega
  refine ⟨hsep, hshallow, hparts, hbalanced.1 ⟨_, hparts⟩, fun i => ?_, fun j => ?_⟩
  · rw [hcuts.cutAt_iff]
    simp only [← and_assoc, hone, exists_eq_left]
    rfl
  · rw [hcuts.cutAt_utf8_iff]
    simp only [← and_assoc, hone, exists_eq_left]
    rfl

/-! ## Texts that are too deep -/

/-- As many parentheses one inside the other. -/
def nested (n : Nat) : List Char := List.replicate n '(' ++ List.replicate n ')'

theorem countOutside_take_nested (n k : Nat) :
    countOutside .char '(' ((nested n).take k) = min k n ∧
      countOutside .char ')' ((nested n).take k) = min (k - n) n := by
  have htake : (nested n).take k =
      List.replicate (min k n) '(' ++ List.replicate (min (k - n) n) ')' := by
    rw [nested, List.take_append, List.take_replicate, List.length_replicate, List.take_replicate]
  have hquote : Marks.char.quote ∉ (nested n).take k := by
    rw [htake]
    simp [List.mem_replicate]
  rw [countOutside_eq_count _ hquote, countOutside_eq_count _ hquote, htake]
  simp [List.count_replicate]

theorem length_nested (n : Nat) : (nested n).length = n + n := by
  rw [nested, List.length_append, List.length_replicate, List.length_replicate]

theorem balanced_nested (n : Nat) : Balanced .char (nested n) := by
  have hquote : (nested n).count '"' = 0 := by simp [nested, List.count_replicate]
  refine ⟨⟨?_, ?_⟩, fun before hbefore => ?_⟩
  · rw [Marks.quote_char, hquote]
    exact Even.zero
  · obtain ⟨hopen, hclose⟩ := countOutside_take_nested n (n + n)
    rw [← length_nested, List.take_length, length_nested] at hopen hclose
    rw [Marks.opening_char, Marks.closing_char, hopen, hclose]
    omega
  · rw [List.prefix_iff_eq_take] at hbefore
    obtain ⟨hopen, hclose⟩ := countOutside_take_nested n before.length
    rw [hbefore, Marks.opening_char, Marks.closing_char, hopen, hclose]
    omega

theorem shallow_nested_iff (n : Nat) : Shallow .char (nested n) ↔ n ≤ 2 ^ 31 := by
  constructor
  · intro h
    have hle := h ((nested n).take n) (List.take_prefix _ _)
    obtain ⟨hopen, hclose⟩ := countOutside_take_nested n n
    rw [Marks.opening_char, Marks.closing_char, hopen, hclose] at hle
    omega
  · intro hn before hbefore
    rw [List.prefix_iff_eq_take] at hbefore
    obtain ⟨hopen, -⟩ := countOutside_take_nested n before.length
    rw [hbefore, Marks.opening_char, Marks.closing_char, hopen]
    omega

/-- Parentheses that are only opened are all the reader sees of them up to a multiple of
    `2 ^ 32`. -/
theorem foldlM_step_replicate_open (n : Nat) :
    (List.replicate n '(').foldlM Nesting.step .top = some ⟨.ofNat n, false⟩ := by
  induction n with
  | zero => rfl
  | succ n ih =>
    rw [List.replicate_succ', List.foldlM_append, ih]
    simp [Nesting.step, Int32.ofNat_add]

theorem not_balanced_replicate_open {n : Nat} (hn : 0 < n) :
    ¬Balanced .char (List.replicate n '(') := by
  intro h
  have hquote : Marks.char.quote ∉ List.replicate n '(' := by simp [List.mem_replicate]
  have hclosed := h.atTop.2
  rw [countOutside_eq_count _ hquote, countOutside_eq_count _ hquote] at hclosed
  simp [List.count_replicate] at hclosed
  omega

/-- One pair of parentheses more than `2 ^ 31`, each inside the next, is balanced and cannot be
    split, and `2 ^ 32` opening parentheses are not balanced and can be split. -/
theorem splitTopLevel_too_deep :
    (Balanced .char (nested (2 ^ 31 + 1)) ∧
        ∀ sep ∈ Separator.all, ¬∃ parts, splitTopLevel sep (nested (2 ^ 31 + 1)) = .ok parts) ∧
      ¬Balanced .char (List.replicate (2 ^ 32) '(') ∧
        ∀ sep ∈ Separator.all,
          ∃ parts, splitTopLevel sep (List.replicate (2 ^ 32) '(') = .ok parts := by
  refine ⟨⟨balanced_nested _, ?_⟩, not_balanced_replicate_open (by decide), ?_⟩
  · intro sep hsep
    rw [(balanced_nested _).exists_splitTopLevel_iff (Separator.of_mem_all hsep).1,
      shallow_nested_iff]
    omega
  · intro sep hsep
    rw [exists_splitTopLevel_iff_foldlM_step (Separator.of_mem_all hsep).1]
    exact (foldlM_step_replicate_open _).trans (congrArg _ (by decide))

end HornOntology.Text
