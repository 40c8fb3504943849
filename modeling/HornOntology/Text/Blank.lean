set_option autoImplicit false

/-! # Blank characters

Blank is what Unicode gives the property White_Space. `trim` takes blanks off both ends of a
text. -/

namespace HornOntology.Text

/-- Ranges of the code points with the property White_Space, both ends included. -/
def blankRanges : List (Nat × Nat) := [
  (0x9, 0xd), (0x20, 0x20), (0x85, 0x85), (0xa0, 0xa0), (0x1680, 0x1680), (0x2000, 0x200a),
  (0x2028, 0x2029), (0x202f, 0x202f), (0x205f, 0x205f), (0x3000, 0x3000)]

/-- Whether a character is white space. -/
def isBlank (c : Char) : Bool :=
  blankRanges.any fun (low, high) => low ≤ c.toNat && c.toNat ≤ high

/-- A text without the blanks before it. -/
def trimLeft (text : List Char) : List Char := text.dropWhile isBlank

/-- A text without the blanks after it. -/
def trimRight (text : List Char) : List Char := (text.reverse.dropWhile isBlank).reverse

/-- A text without the blanks around it. -/
def trim (text : List Char) : List Char := trimRight (trimLeft text)

end HornOntology.Text
