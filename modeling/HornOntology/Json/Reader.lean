import HornOntology.Data
import HornOntology.Json.Token

set_option autoImplicit false

/-! # Reading JSON

The tokens of a text are read one after the other by a machine that keeps the lists and tables that
are still open. It knows at every point what may come next. Nesting has no limit here, but a list
or table inside more than `depthLimit` others cannot be held. -/

namespace HornOntology.Json

/-- How many lists and tables may be open around what is held. -/
def depthLimit : Nat := 127

/-- What an open list or table holds so far, last one first. -/
inductive Contents where
  | list (items : List Data)
  /-- A table, with whether all its keys are readable, and the key of the value that comes
      next. -/
  | table (fields : List (String × Data)) (sound : Bool) (key : Option String)

/-- A list or table that is still open. -/
structure Frame where
  /-- How many lists and tables are open up to this one. -/
  depth : Nat
  contents : Contents

namespace Frame

/-- A list or table that begins inside the given ones. -/
def enter (outer : List Frame) (contents : Contents) : Frame :=
  match outer with
  | [] => ⟨1, contents⟩
  | frame :: _ => ⟨frame.depth + 1, contents⟩

/-- Take in the next value. -/
def add (value : Data) (frame : Frame) : Frame :=
  match frame.contents with
  | .list items => { frame with contents := .list (value :: items) }
  | .table fields sound (some key) =>
    { frame with contents := .table ((key, value) :: fields) sound none }
  | .table fields _ none => { frame with contents := .table fields false none }

/-- The value of a list or table that is complete. -/
def close (frame : Frame) : Data :=
  if depthLimit < frame.depth then .unreadable
  else
    match frame.contents with
    | .list items => .list items.reverse
    | .table fields true _ => .table fields.reverse
    | .table _ false _ => .unreadable

end Frame

/-- What may come next. -/
inductive Expect where
  | value
  /-- A value, or the end of the list. -/
  | valueOrClose
  /-- A key. -/
  | key
  /-- A key, or the end of the table. -/
  | keyOrClose
  | colon
  /-- A comma, or the end of the list or table. -/
  | commaOrClose
  /-- Nothing: the text is complete. -/
  | nothing
deriving DecidableEq

/-- The state of the machine. -/
structure State where
  /-- The open lists and tables, innermost first. -/
  stack : List Frame
  expect : Expect
  /-- The value of the text, once it is complete. -/
  result : Option Data

namespace State

/-- Before the first token. -/
def start : State := ⟨[], .value, none⟩

/-- A value is complete. -/
def complete (value : Data) : List Frame → State
  | [] => ⟨[], .nothing, some value⟩
  | frame :: outer => ⟨frame.add value :: outer, .commaOrClose, none⟩

/-- The innermost list or table is complete. -/
def close : List Frame → Option State
  | [] => none
  | frame :: outer => some (complete frame.close outer)

/-- A value begins or is there. -/
def value (stack : List Frame) : Token → Option State
  | .openList => some ⟨.enter stack (.list []) :: stack, .valueOrClose, none⟩
  | .openTable => some ⟨.enter stack (.table [] true none) :: stack, .keyOrClose, none⟩
  | .string (some text) => some (complete (.string text) stack)
  | .string none => some (complete .unreadable stack)
  | .number true => some (complete .scalar stack)
  | .number false => some (complete .unreadable stack)
  | .boolean b => some (complete (.boolean b) stack)
  | .null => some (complete .scalar stack)
  | .closeList | .closeTable | .colon | .comma => none

/-- A key of the innermost table. -/
def key (text : Option String) : List Frame → Option State
  | ⟨depth, .table fields sound _⟩ :: outer =>
    some ⟨⟨depth, .table fields sound text⟩ :: outer, .colon, none⟩
  | _ => none

/-- A comma or a closing mark after a value. -/
def continue? (stack : List Frame) (token : Token) : Option State :=
  match stack, token with
  | ⟨_, .list _⟩ :: _, .comma => some ⟨stack, .value, none⟩
  | ⟨_, .list _⟩ :: _, .closeList => close stack
  | ⟨_, .table _ _ _⟩ :: _, .comma => some ⟨stack, .key, none⟩
  | ⟨_, .table _ _ _⟩ :: _, .closeTable => close stack
  | _, _ => none

/-- Read one token. -/
def step (s : State) (token : Token) : Option State :=
  match s.expect, token with
  | .value, token => value s.stack token
  | .valueOrClose, .closeList => close s.stack
  | .valueOrClose, token => value s.stack token
  | .key, .string text => key text s.stack
  | .keyOrClose, .string text => key text s.stack
  | .keyOrClose, .closeTable => close s.stack
  | .colon, .colon => some ⟨s.stack, .value, none⟩
  | .commaOrClose, token => continue? s.stack token
  | _, _ => none

end State

/-- The value of a text, if it is JSON. -/
def parse? (text : String) : Option Data := do
  let tokens ← tokens text.toList
  let state ← tokens.foldlM State.step .start
  state.result

end HornOntology.Json
