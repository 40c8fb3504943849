import HornOntology.Data
import HornOntology.Toml.Lexical

set_option autoImplicit false

/-! # Numbers, truth values, dates and times of TOML

Whole numbers are held as such and must fit a signed 64-bit word. Of other numbers nothing is
held, but they must not be beyond the range of doubles. A date or time is a table with a field
that no record knows. -/

namespace HornOntology.Toml

/-! ## Dates and times -/

/-- A number of exactly so many digits. -/
def fixedDigits? (count : Nat) : Reader Nat := fun text =>
  let digits := text.take count
  if digits.length = count ∧ digits.all Char.isDigit then
    some (Decimal.ofDigits 0 digits, text.drop count)
  else none

/-- A number of two digits in a range. -/
def twoDigits? (low high : Nat) : Reader Nat := fun text => do
  let (n, rest) ← fixedDigits? 2 text
  if low ≤ n ∧ n ≤ high then some (n, rest) else none

/-- What follows a character. -/
def expect? (c : Char) : List Char → Option (List Char)
  | d :: rest => if d = c then some rest else none
  | [] => none

/-- How many days a month has. -/
def daysIn (year month : Nat) : Nat :=
  if month = 2 then
    if year % 4 = 0 ∧ (year % 100 ≠ 0 ∨ year % 400 = 0) then 29 else 28
  else if month = 4 ∨ month = 6 ∨ month = 9 ∨ month = 11 then 30
  else 31

/-- What follows a date. -/
def date? (text : List Char) : Option (List Char) := do
  let (year, rest) ← fixedDigits? 4 text
  let rest ← expect? '-' rest
  let (month, rest) ← twoDigits? 1 12 rest
  let rest ← expect? '-' rest
  let (_, rest) ← twoDigits? 1 (daysIn year month) rest
  return rest

/-- What follows a time of day. -/
def time? (text : List Char) : Option (List Char) := do
  let (_, rest) ← twoDigits? 0 23 text
  let rest ← expect? ':' rest
  let (_, rest) ← twoDigits? 0 59 rest
  let rest ← expect? ':' rest
  let (_, rest) ← twoDigits? 0 60 rest
  match rest with
  | '.' :: rest =>
    let (digits, rest) := Decimal.spanDigits rest
    if digits.isEmpty then none else some rest
  | rest => some rest

/-- What follows the offset that a time may have. -/
def offset? : List Char → Option (List Char)
  | 'Z' :: rest | 'z' :: rest => some rest
  | '+' :: rest | '-' :: rest => do
    let (_, rest) ← twoDigits? 0 23 rest
    let rest ← expect? ':' rest
    let (_, rest) ← twoDigits? 0 59 rest
    return rest
  | rest => some rest

/-- Whether a text starts with an hour and the colon after it. -/
def startsTime (text : List Char) : Bool :=
  ((twoDigits? 0 23 text).bind fun (_, rest) => expect? ':' rest).isSome

/-- What follows a date, perhaps with a time and an offset. -/
def dateTime? (text : List Char) : Option (List Char) := do
  match ← date? text with
  | 'T' :: rest | 't' :: rest | ' ' :: rest =>
    if startsTime rest then time? rest >>= offset? else date? text
  | rest => some rest

/-- A date or time as data. -/
def moment : Data := .table [("datetime", .scalar)]

/-! ## Numbers -/

/-- A row of digits in which single underscores may stand between digits; the digits alone, after
    those found so far, last one first. -/
def digitRow (isDigit : Char → Bool) (found : List Char) : Reader (List Char)
  | [] => if found.isEmpty then none else some (found.reverse, [])
  | '_' :: c :: rest =>
    if ¬ found.isEmpty ∧ isDigit c then digitRow isDigit (c :: found) rest else none
  | c :: rest =>
    if isDigit c then digitRow isDigit (c :: found) rest
    else if found.isEmpty ∨ c = '_' then none
    else some (found.reverse, c :: rest)

/-- The digits of a decimal whole number: a zero alone, or a row without a leading zero. -/
def wholeDigits? : Reader (List Char)
  | '0' :: rest => some (['0'], rest)
  | text => digitRow Char.isDigit [] text

/-- A number in another base, if it fits a signed 64-bit word. -/
def basedInteger? (base : Nat) : Reader Data := fun text => do
  let isDigit (c : Char) : Bool := (Json.hexValue? c).any (· < base)
  let (digits, rest) ← digitRow isDigit [] text
  let n := digits.foldl (fun n c => base * n + (Json.hexValue? c).getD 0) 0
  if n < 9223372036854775808 then some (.integer n, rest) else none

/-- The fraction that a number may have, as it is written without underscores. -/
def fraction? : Reader (List Char)
  | '.' :: rest => (digitRow Char.isDigit [] rest).map fun (digits, rest) => ('.' :: digits, rest)
  | rest => some ([], rest)

/-- The power of ten that a number may have, as it is written without underscores. -/
def exponent? : Reader (List Char)
  | [] => some ([], [])
  | c :: rest =>
    if c = 'e' ∨ c = 'E' then
      let (sign, rest) := match rest with
        | '+' :: rest => (['+'], rest)
        | '-' :: rest => (['-'], rest)
        | rest => ([], rest)
      (digitRow Char.isDigit [] rest).map fun (digits, rest) => ('e' :: sign ++ digits, rest)
    else some ([], c :: rest)

/-- A number in base ten after its sign. -/
def decimal? (negative : Bool) : Reader Data := fun text => do
  let (whole, rest) ← wholeDigits? text
  let (fraction, rest) ← fraction? rest
  let (power, rest) ← exponent? rest
  if fraction.isEmpty ∧ power.isEmpty then
    let n : Int := Decimal.ofDigits 0 whole
    let n := if negative then -n else n
    if -9223372036854775808 ≤ n ∧ n < 9223372036854775808 then some (.integer n, rest) else none
  else
    let d ← Decimal.parse? (whole ++ fraction ++ power)
    if negative ∨ (Binary64.ofDecimal? d).isSome then some (.scalar, rest) else none

/-- An infinity, something that is no number, or a number in base ten, after a sign. -/
def signed? (negative : Bool) : Reader Data
  | 'i' :: 'n' :: 'f' :: rest => some (.scalar, rest)
  | 'n' :: 'a' :: 'n' :: rest => some (.scalar, rest)
  | text => decimal? negative text

/-- A number. -/
def number? : Reader Data
  | '+' :: rest => signed? false rest
  | '-' :: rest => signed? true rest
  | '0' :: 'x' :: rest => basedInteger? 16 rest
  | '0' :: 'o' :: rest => basedInteger? 8 rest
  | '0' :: 'b' :: rest => basedInteger? 2 rest
  | text => signed? false text

/-- A value without parts, other than a string. -/
def scalar? : Reader Data
  | 't' :: 'r' :: 'u' :: 'e' :: rest => some (.boolean true, rest)
  | 'f' :: 'a' :: 'l' :: 's' :: 'e' :: rest => some (.boolean false, rest)
  | text =>
    match dateTime? text with
    | some rest => some (moment, rest)
    | none =>
      match time? text with
      | some rest => some (moment, rest)
      | none => number? text

end HornOntology.Toml
