import HornOntology.Json.Token

set_option autoImplicit false

/-! # Blanks, comments, strings and keys of TOML

Each function here reads one thing at the start of a text and gives it back with what follows, or
nothing if the text does not start with such a thing. -/

namespace HornOntology.Toml

/-- What a reader finds at the start of a text, and what follows it. -/
abbrev Reader (α : Type) := List Char → Option (α × List Char)

/-! ## Blanks, line ends and comments -/

/-- Whether a character is a blank within a line. -/
def isSpace (c : Char) : Bool := c = ' ' || c = '\t'

/-- A text without the blanks before it. -/
def skipSpaces (text : List Char) : List Char := text.dropWhile isSpace

/-- What follows a line end. -/
def lineEnd? : List Char → Option (List Char)
  | '\n' :: rest => some rest
  | '\r' :: '\n' :: rest => some rest
  | _ => none

/-- Whether a character may stand in a comment or in a string: anything but control characters
    other than the tab. -/
def isPlain (c : Char) : Bool := c = '\t' || (0x20 ≤ c.toNat && c.toNat ≠ 0x7f)

/-- A text without the comment it may start with. -/
def skipComment : List Char → List Char
  | '#' :: rest => rest.dropWhile isPlain
  | text => text

/-- What follows the rest of a line that holds nothing more. -/
def finishLine? (text : List Char) : Option (List Char) :=
  match skipComment (skipSpaces text) with
  | [] => some []
  | rest => lineEnd? rest

/-- A text without the blanks, line ends and comments before it; a comment must end its line. The
    length of the text is fuel enough. -/
def skipBlankFrom : (fuel : Nat) → List Char → Option (List Char)
  | 0, text => some text
  | fuel + 1, text =>
    match skipSpaces text with
    | '#' :: rest =>
      match lineEnd? (skipComment ('#' :: rest)) with
      | some rest => skipBlankFrom fuel rest
      | none => none
    | '\n' :: rest => skipBlankFrom fuel rest
    | '\r' :: rest =>
      match lineEnd? ('\r' :: rest) with
      | some rest => skipBlankFrom fuel rest
      | none => none
    | rest => some rest

/-- A text without the blanks, line ends and comments before it. -/
def skipBlank? (text : List Char) : Option (List Char) := skipBlankFrom (text.length + 1) text

/-! ## Strings -/

/-- The number that digits in base sixteen write. -/
def hexNumber? (digits : List Char) : Option Nat :=
  digits.foldlM (fun n c => (Json.hexValue? c).map (16 * n + ·)) 0

/-- The character with a code point; surrogates have none. -/
def charOf? (n : Nat) : Option Char := if n.isValidChar then some (Char.ofNat n) else none

/-- The character that stands after a backslash by its code point. -/
def codeEscape? (digits : Nat) : Reader Char := fun text => do
  let c ← if (text.take digits).length = digits then hexNumber? (text.take digits) >>= charOf?
    else none
  return (c, text.drop digits)

/-- The character that the text after a backslash stands for. -/
def escape? : Reader Char
  | 'b' :: rest => some ('\x08', rest)
  | 't' :: rest => some ('\t', rest)
  | 'n' :: rest => some ('\n', rest)
  | 'f' :: rest => some ('\x0c', rest)
  | 'r' :: rest => some ('\r', rest)
  | '"' :: rest => some ('"', rest)
  | '\\' :: rest => some ('\\', rest)
  | 'u' :: rest => codeEscape? 4 rest
  | 'U' :: rest => codeEscape? 8 rest
  | _ => none

/-- The way a string is written: its quote, and whether a backslash escapes. -/
structure Quoting where
  quote : Char
  escapes : Bool

/-- A string between double quotes. -/
def Quoting.basic : Quoting := ⟨'"', true⟩

/-- A string between single quotes. -/
def Quoting.literal : Quoting := ⟨'\x27', false⟩

/-- The rest of a string on one line, after the characters found so far, last one first. -/
def lineString (q : Quoting) : (fuel : Nat) → (found : List Char) → Reader String
  | 0, _, _ => none
  | _ + 1, _, [] => none
  | fuel + 1, found, c :: rest =>
    if c = q.quote then some (String.ofList found.reverse, rest)
    else if q.escapes ∧ c = '\\' then
      match escape? rest with
      | some (e, rest) => lineString q fuel (e :: found) rest
      | none => none
    else if isPlain c then lineString q fuel (c :: found) rest
    else none

/-- A text without the blanks and line ends before it. -/
def skipLines : List Char → List Char
  | ' ' :: rest | '\t' :: rest | '\n' :: rest | '\r' :: '\n' :: rest => skipLines rest
  | text => text

/-- What follows a backslash at the end of a line: the next character that is not blank. -/
def skipContinuation? (text : List Char) : Option (List Char) :=
  (lineEnd? (skipSpaces text)).map skipLines

/-- The rest of a string over several lines, after the characters found so far, last one first.
    Up to two quotes in a row belong to the string, also right before the three that end it. -/
def blockString (q : Quoting) : (fuel : Nat) → (found : List Char) → Reader String
  | 0, _, _ => none
  | _ + 1, _, [] => none
  | fuel + 1, found, c :: rest =>
    if c = q.quote then
      let run := ((c :: rest).takeWhile (· = q.quote)).length
      if run < 3 then
        blockString q fuel (List.replicate run c ++ found) ((c :: rest).drop run)
      else
        let inner := min (run - 3) 2
        some (String.ofList (List.replicate inner c ++ found).reverse,
          (c :: rest).drop (inner + 3))
    else if q.escapes ∧ c = '\\' then
      match skipContinuation? rest with
      | some rest => blockString q fuel found rest
      | none =>
        match escape? rest with
        | some (e, rest) => blockString q fuel (e :: found) rest
        | none => none
    else
      match lineEnd? (c :: rest) with
      | some rest => blockString q fuel ('\n' :: found) rest
      | none => if isPlain c then blockString q fuel (c :: found) rest else none

/-- A string of a kind, on one line. -/
def shortString? (q : Quoting) : Reader String
  | [] => none
  | c :: rest => if c = q.quote then lineString q (rest.length + 1) [] rest else none

/-- A string of a kind, on one line or over several; a line end right after the opening quotes is
    not part of it. -/
def string? (q : Quoting) (text : List Char) : Option (String × List Char) :=
  if [q.quote, q.quote, q.quote].isPrefixOf text then
    let body := text.drop 3
    blockString q (body.length + 1) [] ((lineEnd? body).getD body)
  else shortString? q text

/-! ## Keys -/

/-- Whether a character may stand in a key without quotes. -/
def isBareKey (c : Char) : Bool := c.isAlphanum || c = '-' || c = '_'

/-- One part of a key. -/
def simpleKey? : Reader String
  | '"' :: rest => shortString? .basic ('"' :: rest)
  | '\x27' :: rest => shortString? .literal ('\x27' :: rest)
  | text =>
    let (key, rest) := text.span isBareKey
    if key.isEmpty then none else some (String.ofList key, rest)

/-- The parts of a key, after those found so far, last one first; blanks may stand around each. -/
def keyFrom : (fuel : Nat) → (found : List String) → Reader (List String)
  | 0, _, _ => none
  | fuel + 1, found, text =>
    match simpleKey? (skipSpaces text) with
    | none => none
    | some (part, rest) =>
      match skipSpaces rest with
      | '.' :: rest => keyFrom fuel (part :: found) rest
      | rest => some ((part :: found).reverse, rest)

/-- How deep keys, lists and tables may nest. -/
def depthLimit : Nat := 80

/-- A key with its parts. -/
def key? (text : List Char) : Option (List String × List Char) := do
  let (parts, rest) ← keyFrom (text.length + 1) [] text
  if parts.length < depthLimit then some (parts, rest) else none

end HornOntology.Toml
