import HornOntology.Number.Binary64

set_option autoImplicit false

/-! # Tokens of JSON texts

A JSON text is a row of tokens with blanks between them. A token that is well formed need not have
a value: a string may hold half of a surrogate pair, and a number may be beyond the range of
doubles. -/

namespace HornOntology.Json

/-- The words and marks of JSON. -/
inductive Token where
  | openList
  | closeList
  | openTable
  | closeTable
  | colon
  | comma
  /-- A string, with its text if it has one. -/
  | string (text : Option String)
  /-- A number, with whether it is in range. -/
  | number (inRange : Bool)
  | boolean (value : Bool)
  | null
deriving DecidableEq

/-! ## Strings -/

/-- What a string is made of: characters, and UTF-16 units given by number. -/
inductive Piece where
  | char (c : Char)
  | code (n : Nat)

/-- The value of a digit in base sixteen. -/
def hexValue? (c : Char) : Option Nat :=
  if c.isDigit then some (c.toNat - '0'.toNat)
  else if 'a' ≤ c ∧ c ≤ 'f' then some (c.toNat - 'a'.toNat + 10)
  else if 'A' ≤ c ∧ c ≤ 'F' then some (c.toNat - 'A'.toNat + 10)
  else none

/-- The number that four digits in base sixteen write. -/
def hexUnit? (a b c d : Char) : Option Nat := do
  return ((← hexValue? a) * 16 + (← hexValue? b)) * 256 + (← hexValue? c) * 16 + (← hexValue? d)

/-- The character that a backslash and a letter stand for. -/
def escape? : Char → Option Char
  | '"' => some '"'
  | '\\' => some '\\'
  | '/' => some '/'
  | 'b' => some '\x08'
  | 'f' => some '\x0c'
  | 'n' => some '\n'
  | 'r' => some '\r'
  | 't' => some '\t'
  | _ => none

/-- The pieces of a string up to its closing quote, and what follows. -/
def scanString (pieces : List Piece) : List Char → Option (List Piece × List Char)
  | [] => none
  | '"' :: rest => some (pieces.reverse, rest)
  | '\\' :: 'u' :: a :: b :: c :: d :: rest =>
    match hexUnit? a b c d with
    | some n => scanString (.code n :: pieces) rest
    | none => none
  | '\\' :: e :: rest =>
    match escape? e with
    | some c => scanString (.char c :: pieces) rest
    | none => none
  | c :: rest => if c.toNat < 0x20 then none else scanString (.char c :: pieces) rest

/-- Whether a number is the first half of a surrogate pair. -/
def isHighSurrogate (n : Nat) : Bool := 0xd800 ≤ n && n < 0xdc00

/-- Whether a number is the second half of a surrogate pair. -/
def isLowSurrogate (n : Nat) : Bool := 0xdc00 ≤ n && n < 0xe000

/-- The characters of a string, if every surrogate is half of a pair. -/
def assemble : List Piece → Option (List Char)
  | [] => some []
  | .char c :: rest => (assemble rest).map (c :: ·)
  | .code n :: .code m :: rest =>
    if isHighSurrogate n ∧ isLowSurrogate m then
      (assemble rest).map (Char.ofNat (0x10000 + (n - 0xd800) * 0x400 + (m - 0xdc00)) :: ·)
    else if isHighSurrogate n ∨ isLowSurrogate n then none
    else (assemble (.code m :: rest)).map (Char.ofNat n :: ·)
  | .code n :: rest =>
    if isHighSurrogate n ∨ isLowSurrogate n then none
    else (assemble rest).map (Char.ofNat n :: ·)

/-! ## Numbers -/

/-- The significand that is kept of a number: a 64-bit word, and a power of ten. -/
structure Significand where
  word : Nat
  exponent : Int

/-- The largest 64-bit word. -/
def maxWord : Nat := 18446744073709551615

/-- Take in the digits before the point. Once one does not fit the word, it and the following
    digits only count as places. -/
def wholeDigits (s : Significand) : List Char → Significand
  | [] => s
  | c :: rest =>
    let word := s.word * 10 + Decimal.digitValue c
    if s.exponent = 0 ∧ word ≤ maxWord then wholeDigits ⟨word, 0⟩ rest
    else wholeDigits ⟨s.word, s.exponent + 1⟩ rest

/-- Take in the digits after the point, up to the first that does not fit the word. -/
def fractionDigits (s : Significand) : List Char → Significand
  | [] => s
  | c :: rest =>
    let word := s.word * 10 + Decimal.digitValue c
    if word ≤ maxWord then fractionDigits ⟨word, s.exponent - 1⟩ rest else s

/-- Whether a number is in the range of doubles, where the significand and the power of ten are
    rounded before they are multiplied. -/
def Significand.inRange (s : Significand) : Bool :=
  if s.word = 0 ∨ s.exponent < 0 then true
  else
    match Binary64.nearestUnits? 1 s.exponent with
    | none => false
    | some power =>
      Binary64.roundUnits (Binary64.roundUnits (s.word * Binary64.one) 1 * power) Binary64.one
        < Binary64.overflow

/-- The digits before the point: a zero alone, or a row without a leading zero. -/
def scanWhole (text : List Char) : Option (List Char × List Char) :=
  match text with
  | '0' :: rest =>
    if (rest.head?.map Char.isDigit).getD false then none else some (['0'], rest)
  | _ =>
    let (digits, rest) := Decimal.spanDigits text
    if digits.isEmpty then none else some (digits, rest)

/-- The digits after the point, if there is a point. -/
def scanFraction : List Char → Option (List Char × List Char)
  | '.' :: rest =>
    let (digits, rest) := Decimal.spanDigits rest
    if digits.isEmpty then none else some (digits, rest)
  | text => some ([], text)

/-- The power of ten, if there is one. -/
def scanExponent : List Char → Option (Int × List Char)
  | [] => some (0, [])
  | c :: rest =>
    if c = 'e' ∨ c = 'E' then
      let (negative, rest) := Decimal.sign rest
      let (digits, rest) := Decimal.spanDigits rest
      if digits.isEmpty then none
      else
        let n : Int := Decimal.ofDigits 0 digits
        some (if negative then -n else n, rest)
    else some (0, c :: rest)

/-- A number without its sign: whether it is in range, and what follows. -/
def scanNumber (text : List Char) : Option (Bool × List Char) := do
  let (whole, rest) ← scanWhole text
  let (fraction, rest) ← scanFraction rest
  let (exponent, rest) ← scanExponent rest
  let significand := fractionDigits (wholeDigits ⟨0, 0⟩ whole) fraction
  return (Significand.inRange ⟨significand.word, significand.exponent + exponent⟩, rest)

/-! ## Rows of tokens -/

/-- Whether a character may stand between tokens. -/
def isBlank (c : Char) : Bool := c = ' ' || c = '\n' || c = '\t' || c = '\r'

/-- The first token of a text that does not start with a blank, and what follows. -/
def token? : List Char → Option (Token × List Char)
  | '[' :: rest => some (.openList, rest)
  | ']' :: rest => some (.closeList, rest)
  | '\x7b' :: rest => some (.openTable, rest)
  | '\x7d' :: rest => some (.closeTable, rest)
  | ':' :: rest => some (.colon, rest)
  | ',' :: rest => some (.comma, rest)
  | 't' :: 'r' :: 'u' :: 'e' :: rest => some (.boolean true, rest)
  | 'f' :: 'a' :: 'l' :: 's' :: 'e' :: rest => some (.boolean false, rest)
  | 'n' :: 'u' :: 'l' :: 'l' :: rest => some (.null, rest)
  | '"' :: rest =>
    (scanString [] rest).map fun (pieces, rest) =>
      (.string ((assemble pieces).map String.ofList), rest)
  | '-' :: rest => (scanNumber rest).map fun (inRange, rest) => (.number inRange, rest)
  | text => (scanNumber text).map fun (inRange, rest) => (.number inRange, rest)

/-- The tokens of a text, after those already found, last one first. Every token takes at least
    one character, so the length of the text is fuel enough. -/
def tokensFrom (found : List Token) : (fuel : Nat) → List Char → Option (List Token)
  | _, [] => some found.reverse
  | 0, _ :: _ => none
  | fuel + 1, c :: rest =>
    if isBlank c then tokensFrom found fuel rest
    else
      match token? (c :: rest) with
      | none => none
      | some (token, rest) => tokensFrom (token :: found) fuel rest

/-- The tokens of a text, if it is a row of tokens. -/
def tokens (text : List Char) : Option (List Token) := tokensFrom [] text.length text

end HornOntology.Json
