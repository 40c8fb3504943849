set_option autoImplicit false

/-! # Decimal numerals

A decimal numeral is an optional sign, digits with at most one point among them, and an optional
power of ten. `Decimal.parse?` reads one; nothing else may stand in the text. -/

namespace HornOntology

/-- The number `± coefficient · 10 ^ exponent`. -/
structure Decimal where
  negative : Bool
  coefficient : Nat
  exponent : Int
deriving DecidableEq

namespace Decimal

/-- The value of a digit. -/
def digitValue (c : Char) : Nat := c.toNat - '0'.toNat

/-- The number that a row of digits writes, after the digits of `start`. -/
def ofDigits (start : Nat) (digits : List Char) : Nat :=
  digits.foldl (fun n c => 10 * n + digitValue c) start

/-- The digits at the start of a text, and what follows them. -/
def spanDigits (text : List Char) : List Char × List Char := text.span Char.isDigit

/-- An optional sign, and what follows it. -/
def sign : List Char → Bool × List Char
  | '-' :: rest => (true, rest)
  | '+' :: rest => (false, rest)
  | text => (false, text)

/-- The power of ten that ends a numeral, if the text is one: empty, or `e` and a whole number. -/
def exponentPart? : List Char → Option Int
  | [] => some 0
  | c :: rest =>
    if c = 'e' ∨ c = 'E' then
      let (negative, rest) := sign rest
      let (digits, rest) := spanDigits rest
      if digits.isEmpty ∨ ¬ rest.isEmpty then none
      else
        let n : Int := ofDigits 0 digits
        some (if negative then -n else n)
    else none

/-- The digits after a point, if there is a point, and what follows them. -/
def fraction : List Char → List Char × List Char
  | '.' :: rest => spanDigits rest
  | text => ([], text)

/-- Read a numeral. -/
def parse? (text : List Char) : Option Decimal :=
  let (negative, rest) := sign text
  let (whole, rest) := spanDigits rest
  let (decimals, rest) := fraction rest
  if whole.isEmpty ∧ decimals.isEmpty then none
  else do
    let exponent ← exponentPart? rest
    return ⟨negative, ofDigits (ofDigits 0 whole) decimals, exponent - decimals.length⟩

end Decimal

end HornOntology
