import HornOntology.Number.Binary64

set_option autoImplicit false

/-! # Double-precision numbers

A double is a finite number, one of the two infinities, or not a number at all. A text writes a
double if it is a decimal numeral, which is rounded and becomes an infinity beyond the largest
finite double, or one of the words for the rest. Doubles are compared as far as they can be:
what is not a number has no order. -/

namespace HornOntology

/-- A double-precision number. -/
inductive Double where
  | finite (value : Binary64)
  | infinite (negative : Bool)
  | nan
deriving DecidableEq

namespace Double

/-- Whether a double is a finite number. -/
def isFinite : Double → Bool
  | finite _ => true
  | infinite _ | nan => false

/-- The double nearest to a decimal numeral. -/
def ofDecimal (d : Decimal) : Double :=
  match Binary64.ofDecimal? d with
  | some value => finite value
  | none => infinite d.negative

/-- The double that a word writes, in upper or lower case and with a sign before it or not. -/
def ofWord? (text : List Char) : Option Double :=
  let (negative, rest) := Decimal.sign text
  let word := rest.map Char.toLower
  if word = "inf".toList ∨ word = "infinity".toList then some (infinite negative)
  else if word = "nan".toList then some nan
  else none

/-- The double that a text writes. -/
def parse? (text : String) : Option Double :=
  match Decimal.parse? text.toList with
  | some d => some (ofDecimal d)
  | none => ofWord? text.toList

/-- The order of two doubles, if they have one. -/
def compare? : Double → Double → Option Ordering
  | nan, _ | _, nan => none
  | finite x, finite y => some (compare x.units y.units)
  | finite _, infinite negative => some (if negative then .gt else .lt)
  | infinite negative, finite _ => some (if negative then .lt else .gt)
  | infinite negative, infinite negative' => some (compare negative' negative)

end Double

end HornOntology
