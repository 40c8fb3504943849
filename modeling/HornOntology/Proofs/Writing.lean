import HornOntology.Proofs.Reading
import HornOntology.Render

set_option autoImplicit false

/-! # Texts that are written from parts

A text that is put together from names and arguments is taken apart again by the reader: the
arguments of an application (`splitAtom_application`), the atoms of a conjunction
(`conjunction_intercalate`) and the two sides of the arrow (`sides_append`). Reading a whole text is
then reading its atoms one by one (`readRule_append`, `readQuery_append`), whatever they are read
as and whatever reading does besides.

What it takes is that each argument is one argument (`IsArgument`) and that each name could stand in
front of a parenthesis (`IsAtomName`). -/

namespace HornOntology

/-- A name that comes back from in front of the parenthesis of an atom. -/
structure IsAtomName (name : String) : Prop where
  ne_nil : name.toList ≠ []
  trimmed : Text.Trimmed name.toList
  no_open : '(' ∉ name.toList
  uncut_arrow : Text.Uncut .arrow name.toList
  uncut_caret : Text.Uncut .caret name.toList

/-! ## The text of an application -/

theorem toList_application (name : String) (args : List String) :
    (Registry.application name args).toList =
      name.toList ++ '(' :: ([',', ' '].intercalate (args.map String.toList) ++ [')']) := by
  rw [Registry.application, String.toList_append, String.toList_append, String.toList_append,
    String.toList_intercalate, List.append_assoc, List.append_assoc]
  rfl

section Application

variable {name : String} {args : List String}

theorem uncut_toList_application {sep : Text.Separator} (hsep : sep.IsPlain)
    (hcomma : sep.Ignores ',') (hrest : ',' ∉ sep.rest)
    (hname : Text.Uncut sep name.toList)
    (hargs : ∀ arg ∈ args, Text.UncutInside sep arg.toList) :
    Text.Uncut sep (Registry.application name args).toList := by
  have hglue : ∀ c ∈ [',', ' '], sep.Ignores c :=
    List.forall_mem_cons.2
      ⟨hcomma, List.forall_mem_singleton.2 (hsep.ignores_of_isBlank (by decide))⟩
  rw [toList_application]
  exact Text.uncut_application hsep hname
    (Text.walk_intercalate hglue hrest (List.forall_mem_map.2 hargs))

theorem trimmed_toList_application (hname : IsAtomName name) (args : List String) :
    Text.Trimmed (Registry.application name args).toList := by
  rw [toList_application]
  refine Text.trimmed_of_ends ?_ ?_
  · rw [List.head?_append_of_ne_nil _ hname.ne_nil]
    exact hname.trimmed.head?
  · simp [List.getLast?_append, List.getLast?_cons]
    decide

theorem toList_application_ne_nil : (Registry.application name args).toList ≠ [] := by
  rw [toList_application]
  exact List.append_ne_nil_of_right_ne_nil _ (List.cons_ne_nil _ _)

end Application

/-- A name that comes back, applied to arguments that come back. -/
inductive IsAtomText : String → Prop where
  | application {name : String} {args : List String} (hname : IsAtomName name)
      (hargs : ∀ arg ∈ args, IsArgument arg.toList) :
      IsAtomText (Registry.application name args)

namespace IsAtomText

variable {text : String} (h : IsAtomText text)

include h

theorem ne_nil : text.toList ≠ [] := by
  cases h
  exact toList_application_ne_nil

theorem trimmed : Text.Trimmed text.toList := by
  cases h with
  | application hname _ => exact trimmed_toList_application hname _

theorem uncut_caret : Text.Uncut .caret text.toList := by
  cases h with
  | application hname hargs =>
    exact uncut_toList_application Text.Separator.caret_isPlain (by decide) (by decide)
      hname.uncut_caret fun arg harg => (hargs arg harg).inside_caret

theorem uncut_arrow : Text.Uncut .arrow text.toList := by
  cases h with
  | application hname hargs =>
    exact uncut_toList_application Text.Separator.arrow_isPlain (by decide) (by decide)
      hname.uncut_arrow fun arg harg => (hargs arg harg).inside_arrow

end IsAtomText

namespace RuleText

/-! ## Atoms -/

theorem splitOpen_append {before : List Char} (h : '(' ∉ before) (after : List Char) :
    splitOpen (before ++ '(' :: after) = some (before, after) := by
  induction before with
  | nil => rfl
  | cons c before ih =>
    obtain ⟨hc, hbefore⟩ := not_or.1 (List.mem_cons.not.1 h)
    rw [List.cons_append, splitOpen, if_neg (Ne.symm hc), ih hbefore]
    rfl

theorem stripClose_append (text : List Char) : stripClose (text ++ [')']) = some text := by
  rw [stripClose, List.getLast?_concat, if_pos rfl, List.dropLast_concat]

theorem arguments_intercalate {args : List (List Char)} (hargs : ∀ arg ∈ args, IsArgument arg) :
    arguments ([',', ' '].intercalate args) = .ok args := by
  cases args with
  | nil => rfl
  | cons first rest =>
    have hne : Text.trim ([',', ' '].intercalate (first :: rest)) ≠ [] := by
      have hfirst := hargs first List.mem_cons_self
      obtain ⟨c, text, rfl⟩ := List.exists_cons_of_ne_nil hfirst.ne_nil
      refine Text.trim_ne_nil (c := c) ?_ (hfirst.trimmed.head? c rfl)
      cases rest <;> simp [List.intercalate_cons_cons]
    obtain ⟨found, hfound, htrim⟩ := Text.splitTopLevel_intercalate
      Text.Separator.comma_isPlain (List.cons_ne_nil first rest)
      (fun arg harg => ⟨(hargs arg harg).ne_nil, (hargs arg harg).trimmed, (hargs arg harg).uncut⟩)
      [] [] [' '] [] Text.blank_nil Text.blank_nil Text.blank_space Text.blank_nil
    rw [List.append_nil, List.nil_append] at hfound
    rw [arguments, if_neg (by simpa using hne), split]
    change Except.map _ (Except.mapError _ (Text.splitTopLevel .comma
      ([',', ' '].intercalate (first :: rest)))) = _
    rw [show [',', ' '] = [] ++ Text.Separator.comma.toList ++ [' '] from rfl, hfound]
    exact congrArg Except.ok htrim

/-- The name and the arguments of an application come back. -/
theorem splitAtom_application {name : String} {args : List String} (hname : IsAtomName name)
    (hargs : ∀ arg ∈ args, IsArgument arg.toList) (input : String) :
    splitAtom input (Registry.application name args).toList =
      .ok (name.toList, args.map String.toList) := by
  have hempty : (args.map String.toList).any List.isEmpty = false := by
    refine List.any_eq_false.2 (List.forall_mem_map.2 fun arg harg => ?_)
    simpa using (hargs arg harg).ne_nil
  rw [toList_application, splitAtom, splitOpen_append hname.no_open]
  dsimp only
  rw [stripClose_append]
  dsimp only
  rw [hname.trimmed, if_neg (by simpa using hname.ne_nil),
    arguments_intercalate (List.forall_mem_map.2 hargs)]
  simp only [bind, Except.bind]
  rw [hempty]
  rfl

section Atom

variable {m : Type → Type} [Monad m] [LawfulMonad m] [MonadExcept Error m]
  (constant : String → m Constant)

theorem ofExcept_ok_bind {α β : Type} (a : α) (f : α → m β) :
    (ofExcept (.ok a : Except Error α) >>= f) = f a := pure_bind a f

theorem atom_application (registry : Registry) {name : String} {args : List String}
    (hname : IsAtomName name) (hargs : ∀ arg ∈ args, IsArgument arg.toList) (input : String) :
    atom registry constant input (Registry.application name args).toList =
      if Builtin.nameSpace.toList.isPrefixOf name.toList then
        builtinAtom constant name (args.map String.toList)
      else
        relationalAtom registry constant (String.ofList (name.toList.dropWhile (· = '#')))
          (args.map String.toList) := by
  rw [atom, if_neg (by simpa using toList_application_ne_nil), splitAtom_application hname hargs]
  simp only [Except.mapError, ofExcept_ok_bind, String.ofList_toList]

end Atom

/-! ## Conjunctions -/

section Conjunction

variable {m : Type → Type} [Monad m] [LawfulMonad m] [MonadExcept Error m]
  (constant : String → m Constant) {texts : List String} (htexts : ∀ text ∈ texts, IsAtomText text)

include htexts

theorem uncut_toList_intercalate : Text.Uncut .arrow (" ^ ".intercalate texts).toList := by
  have hglue : ∀ c ∈ [' ', '^', ' '], Text.Separator.arrow.Ignores c := by
    simp only [List.forall_mem_cons]
    exact ⟨by decide, by decide, by decide, List.forall_mem_nil _⟩
  rw [String.toList_intercalate]
  exact Text.walk_intercalate hglue (by decide)
    (List.forall_mem_map.2 fun text ht => (htexts text ht).uncut_arrow)

/-- A conjunction, with blanks around it, is read atom by atom. -/
theorem conjunction_intercalate (registry : Registry) (hne : texts ≠ []) (input : String)
    (pre post : List Char) (hpre : Text.Blank pre) (hpost : Text.Blank post) :
    conjunction registry constant input (pre ++ (" ^ ".intercalate texts).toList ++ post) =
      texts.mapM fun text => atom registry constant input text.toList := by
  have hparts : ∀ part ∈ texts.map String.toList,
      part ≠ [] ∧ Text.Trimmed part ∧ Text.Uncut .caret part :=
    List.forall_mem_map.2 fun text ht =>
      ⟨(htexts text ht).ne_nil, (htexts text ht).trimmed, (htexts text ht).uncut_caret⟩
  obtain ⟨found, hfound, htrim⟩ := Text.splitTopLevel_intercalate Text.Separator.caret_isPlain
    (by simpa using hne) hparts pre [' '] [' '] post hpre Text.blank_space Text.blank_space hpost
  have hsplit : split .caret (pre ++ (" ^ ".intercalate texts).toList ++ post) = .ok found := by
    rw [String.toList_intercalate, split]
    exact congrArg _ hfound
  calc conjunction registry constant input (pre ++ (" ^ ".intercalate texts).toList ++ post)
      = found.mapM fun part => atom registry constant input (Text.trim part) := by
        rw [conjunction, hsplit]
        exact ofExcept_ok_bind _ _
    _ = (found.map Text.trim).mapM (atom registry constant input) := by rw [List.mapM_map]; rfl
    _ = texts.mapM fun text => atom registry constant input text.toList := by
        rw [htrim, List.mapM_map]
        rfl

end Conjunction

/-! ## Rules and queries -/

theorem sides_append {body head : String} (hbody : Text.Uncut .arrow body.toList)
    (hhead : Text.Uncut .arrow head.toList) :
    sides (body ++ " -> " ++ head) = .ok (body.toList ++ [' '], [' '] ++ head.toList) := by
  have hplain := Text.Separator.arrow_isPlain
  have hbody' : Text.Uncut .arrow (body.toList ++ [' ']) :=
    (Text.uncut_append_iff hplain [] [' '] Text.blank_nil Text.blank_space).2 hbody
  have hhead' : Text.Uncut .arrow ([' '] ++ head.toList ++ []) :=
    (Text.uncut_append_iff hplain [' '] [] Text.blank_space Text.blank_nil).2 hhead
  have htext : (body ++ " -> " ++ head).toList =
      (body.toList ++ [' ']) ++
        (Text.Separator.arrow.toList ++ ([' '] ++ head.toList ++ [])) := by
    simp [Text.Separator.arrow, Text.Separator.toList]
  rw [sides, split, htext, Text.splitTopLevel_cut hplain hbody',
    Text.splitTopLevel_of_uncut hplain hhead', List.append_nil]
  rfl

section Texts

variable {m : Type → Type} [Monad m] [LawfulMonad m] [MonadExcept Error m]
  (constant : String → m Constant)

/-- A rule text is read atom by atom, and then checked. -/
theorem readRule_append (registry : Registry) (name : String) {body head : List String}
    (hbody : ∀ text ∈ body, IsAtomText text) (hbne : body ≠ [])
    (hhead : ∀ text ∈ head, IsAtomText text) (hhne : head ≠ []) {input : String}
    (hinput : input = " ^ ".intercalate body ++ " -> " ++ " ^ ".intercalate head) :
    readRule registry constant name input = (do
      let body ← body.mapM fun text => atom registry constant input text.toList
      let head ← head.mapM fun text => atom registry constant input text.toList
      ofExcept ((Rule.ofParts name body head).mapError .rule)) := by
  have hsides := sides_append (uncut_toList_intercalate hbody) (uncut_toList_intercalate hhead)
  have hreadBody := conjunction_intercalate constant hbody registry hbne input [] [' ']
    Text.blank_nil Text.blank_space
  have hreadHead := conjunction_intercalate constant hhead registry hhne input [' '] []
    Text.blank_space Text.blank_nil
  rw [List.nil_append] at hreadBody
  rw [List.append_nil] at hreadHead
  rw [← hinput] at hsides
  rw [readRule, hsides]
  simp only [Except.mapError, ofExcept_ok_bind, hreadBody, hreadHead]

/-- A query text is read atom by atom, then its selection, and then it is checked. -/
theorem readQuery_append (registry : Registry) (name : String) {body : List String}
    {head : String} (hbody : ∀ text ∈ body, IsAtomText text) (hbne : body ≠ [])
    (hhead : IsAtomText head) {input : String}
    (hinput : input = " ^ ".intercalate body ++ " -> " ++ head) :
    readQuery registry constant name input = (do
      let body ← body.mapM fun text => atom registry constant input text.toList
      let (distinct, projection) ← ofExcept ((selection input head.toList).mapError .text)
      ofExcept ((Query.ofParts name body projection distinct).mapError .rule)) := by
  have hsides := sides_append (uncut_toList_intercalate hbody) hhead.uncut_arrow
  have hreadBody := conjunction_intercalate constant hbody registry hbne input [] [' ']
    Text.blank_nil Text.blank_space
  have hselection : selection input ([' '] ++ head.toList) = selection input head.toList := by
    have htrim := hhead.trimmed.trim_append hhead.ne_nil [' '] [] Text.blank_space
      Text.blank_nil
    rw [List.append_nil] at htrim
    rw [selection, htrim, selection, hhead.trimmed]
  rw [List.nil_append] at hreadBody
  rw [← hinput] at hsides
  rw [readQuery, hsides]
  simp only [Except.mapError, ofExcept_ok_bind, hreadBody, hselection]

end Texts

end RuleText

end HornOntology
