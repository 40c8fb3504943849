set_option autoImplicit false

/-! # Splitting at the top level

Rule texts nest: separators count only outside parentheses and string literals. `splitTopLevel`
cuts a text at such separators and refuses one whose parentheses or quotes are not balanced. -/

namespace HornOntology.Text

/-- Why a text is not balanced. -/
inductive Imbalance where
  /-- A parenthesis is closed that was not open. -/
  | strayClose
  /-- A parenthesis is never closed. -/
  | unclosed
  /-- A string literal is never ended. -/
  | unterminated
deriving DecidableEq

/-- A separator: one character and those that must follow it. -/
structure Separator where
  first : Char
  rest : List Char
deriving DecidableEq

namespace Separator

/-- Between the body and the head of a rule. -/
def arrow : Separator := ⟨'-', ['>']⟩

/-- Between the atoms of a conjunction. -/
def caret : Separator := ⟨'^', []⟩

/-- Between the arguments of an atom. -/
def comma : Separator := ⟨',', []⟩

/-- The separator as it is written. -/
def toList (sep : Separator) : List Char := sep.first :: sep.rest

end Separator

/-- Split what is left of a text, given how many parentheses are open, whether a literal is open,
    and the characters of the current part, last one first. The depth is a number of 32 bits, and
    nothing stops it from running over. -/
def splitFrom (sep : Separator) (depth : Int32) (isQuoted : Bool) (current : List Char) :
    List Char → Except Imbalance (List (List Char))
  | [] =>
    if depth ≠ 0 then .error .unclosed
    else if isQuoted then .error .unterminated
    else .ok [current.reverse]
  | c :: text =>
    if c = '"' then splitFrom sep depth (!isQuoted) (c :: current) text
    else if isQuoted then splitFrom sep depth isQuoted (c :: current) text
    else if c = '(' then splitFrom sep (depth + 1) isQuoted (c :: current) text
    else if c = ')' then
      if depth - 1 < 0 then .error .strayClose
      else splitFrom sep (depth - 1) isQuoted (c :: current) text
    else if depth = 0 ∧ c = sep.first ∧ sep.rest.isPrefixOf text then do
      let parts ← splitFrom sep depth isQuoted [] (text.drop sep.rest.length)
      return current.reverse :: parts
    else splitFrom sep depth isQuoted (c :: current) text
termination_by text => text.length
decreasing_by all_goals simp; try omega

/-- The parts of a text between the separators that stand outside parentheses and literals. -/
def splitTopLevel (sep : Separator) (text : List Char) : Except Imbalance (List (List Char)) :=
  splitFrom sep 0 false [] text

end HornOntology.Text
