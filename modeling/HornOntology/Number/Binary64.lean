import HornOntology.Number.Decimal

set_option autoImplicit false

/-! # Finite binary64 values

A finite double-precision number is a whole multiple of the smallest positive one, `2 ^ -1074`.
`Binary64` is that multiple, an exact integer, so that numbers are compared as integers.
`ofDecimal?` rounds a decimal numeral to the nearest double, ties to the even one; a numeral that
rounds beyond the largest double has no finite value. -/

namespace HornOntology

/-- A finite double, in units of `2 ^ -1074`. -/
structure Binary64 where
  units : Int
deriving DecidableEq

namespace Binary64

/-- How many binary digits the significand has. -/
def precision : Nat := 53

/-- The units in the number one. -/
def one : Nat := Nat.pow 2 1074

/-- The first power of two beyond the finite doubles, in units. -/
def overflow : Nat := Nat.pow 2 1024 * one

/-- The whole number nearest to `num / den`, the even one of two. -/
def roundDiv (num den : Nat) : Nat :=
  let quotient := num / den
  let twice := 2 * (num % den)
  if twice < den ∨ (twice = den ∧ quotient % 2 = 0) then quotient else quotient + 1

/-- How many binary digits of the whole part of `num / den` do not fit a significand. -/
def excess (num den : Nat) : Nat := (num / den).log2 + 1 - precision

/-- Round the number of units `num / den` to one that a double can have. -/
def roundUnits (num den : Nat) : Nat :=
  let scale := Nat.pow 2 (excess num den)
  roundDiv num (den * scale) * scale

/-- The units in `coefficient · 10 ^ exponent`, as a fraction. -/
def fraction (coefficient : Nat) : Int → Nat × Nat
  | .ofNat e => (coefficient * Nat.pow 10 e * one, 1)
  | .negSucc e => (coefficient * one, Nat.pow 10 (e + 1))

/-- How many decimal digits a number has. -/
def digitCount (n : Nat) : Nat := (Nat.toDigits 10 n).length

/-- The units of the double nearest to `coefficient · 10 ^ exponent`. A number of magnitude
    `10 ^ 310` is beyond the doubles and one below `10 ^ -330` rounds to zero, whatever its
    digits; the powers of ten are only computed in between. -/
def nearestUnits? (coefficient : Nat) (exponent : Int) : Option Nat :=
  let magnitude : Int := digitCount coefficient + exponent
  if coefficient = 0 ∨ magnitude < -330 then some 0
  else if 310 < magnitude then none
  else
    let (num, den) := fraction coefficient exponent
    let units := roundUnits num den
    if units < overflow then some units else none

/-- The double nearest to a decimal numeral, if it is finite. -/
def ofDecimal? (d : Decimal) : Option Binary64 := do
  let units ← nearestUnits? d.coefficient d.exponent
  return ⟨if d.negative then -(units : Int) else units⟩

end Binary64

end HornOntology
