set_option autoImplicit false

/-! # Command line arguments

A command line names a command and a file. Settings for the knowledge base may stand on either side
of the command; where both sides give one, the right one counts. Options are written `--name`,
`--name=value` or `--name value`, each at most once on its side. -/

namespace HornOntology.CommandLine

/-- What a command line asks for. -/
inductive Command where
  /-- Classify the ontology. -/
  | check (hierarchy : Bool)
  /-- Derive all facts. -/
  | saturate (derived : Bool)
  /-- Answer one query, by its name or by its text. -/
  | query (name text : Option String) (saturateFirst : Bool)
  /-- Classify, derive, and answer all queries. -/
  | run
  /-- Count what there is. -/
  | info (verbose : Bool)
deriving DecidableEq

/-- Settings that overrule the configuration. -/
structure Settings where
  config : Option String
  parallel : Bool
  naive : Bool
  maxPasses : Option Nat
  materialize : Bool
deriving DecidableEq

/-- A command line that is understood. -/
structure Invocation where
  settings : Settings
  command : Command
  file : String
deriving DecidableEq

/-- Why a command line names no command to run. -/
inductive Halt where
  /-- It cannot be understood. -/
  | usage
  /-- It asks for the version. -/
  | version
  /-- It asks for help. -/
  | help
deriving DecidableEq

/-! ## Values -/

/-- A path is not empty. -/
def path (text : String) : Except Halt String :=
  if text.isEmpty then .error .usage else .ok text

/-- A count is a row of digits, perhaps after a plus sign, that fits a 64-bit word. -/
def count (text : String) : Except Halt Nat :=
  let digits := match text.toList with
    | '+' :: rest => rest
    | all => all
  if digits.isEmpty ∨ ¬ digits.all Char.isDigit then .error .usage
  else
    let n := digits.foldl (fun n c => 10 * n + (c.toNat - '0'.toNat)) 0
    if n < 18446744073709551616 then .ok n else .error .usage

/-- Refuse a value that an option cannot have. -/
def checkValue (name value : String) : Except Halt Unit :=
  match name with
  | "config" => (path value).map fun _ => ()
  | "max-passes" => (count value).map fun _ => ()
  | _ => .ok ()

/-! ## Options and operands -/

/-- The options that may stand at one place of a command line. -/
structure Level where
  flags : List String
  /-- The options that have a value. -/
  valued : List String
  /-- The options that end everything else, by name and by letter. -/
  halts : List (String × Char × Halt)

/-- What an argument ends everything with. A letter counts whatever other letters follow it. -/
def Level.halt? (level : Level) (arg : String) : Option Halt :=
  match arg.toList with
  | '-' :: '-' :: name =>
    (level.halts.find? fun h => h.1 = String.ofList name).map fun h => h.2.2
  | '-' :: letter :: _ => (level.halts.find? fun h => h.2.1 = letter).map fun h => h.2.2
  | _ => none

/-- The options and operands of a row of arguments, last ones first. -/
structure Found where
  options : List (String × Option String)
  operands : List String

namespace Found

/-- Nothing yet. -/
def none : Found := ⟨[], []⟩

/-- Add an option that was not given yet. -/
def addOption (f : Found) (name : String) (value : Option String) : Except Halt Found :=
  if f.options.any fun o => o.1 = name then .error .usage
  else .ok { f with options := (name, value) :: f.options }

/-- Add an option with a value that it can have. -/
def addValue (f : Found) (name value : String) : Except Halt Found := do
  let found ← f.addOption name (some value)
  checkValue name value
  return found

/-- Whether an option is given. -/
def has (f : Found) (name : String) : Bool := f.options.any fun o => o.1 = name

/-- The value of an option. -/
def value? (f : Found) (name : String) : Option String := (f.options.lookup name).bind id

end Found

/-- Whether an argument is written like an option; a dash alone is not. -/
def looksLikeOption (arg : String) : Bool := arg.startsWith "-" && arg != "-"

/-- An option without its dashes, and the value after an equals sign. -/
def splitOption? (arg : String) : Option (String × Option String) :=
  match arg.toList with
  | '-' :: '-' :: rest =>
    match rest.span (· ≠ '=') with
    | (name, []) => some (String.ofList name, none)
    | (name, _ :: value) => some (String.ofList name, some (String.ofList value))
  | _ => none

/-- Read arguments up to the end, or up to the first operand if the rest is for the command it
    names. -/
def scan (level : Level) (stopAtOperand : Bool) (found : Found) :
    List String → Except Halt (Found × List String)
  | [] => .ok (found, [])
  | arg :: rest =>
    match level.halt? arg with
    | some halt => .error halt
    | none =>
      if arg = "--" then
        if stopAtOperand then .error .usage
        else .ok ({ found with operands := rest.reverse ++ found.operands }, [])
      else if looksLikeOption arg then
        match splitOption? arg with
        | none => .error .usage
        | some (name, value) =>
          if level.flags.contains name then
            if value.isSome then .error .usage
            else
              match found.addOption name none with
              | .error halt => .error halt
              | .ok found => scan level stopAtOperand found rest
          else if level.valued.contains name then
            match value, rest with
            | some value, rest =>
              match found.addValue name value with
              | .error halt => .error halt
              | .ok found => scan level stopAtOperand found rest
            | none, value :: rest =>
              if looksLikeOption value then .error .usage
              else
                match found.addValue name value with
                | .error halt => .error halt
                | .ok found => scan level stopAtOperand found rest
            | none, [] => .error .usage
          else .error .usage
      else if stopAtOperand then .ok (found, arg :: rest)
      else scan level stopAtOperand { found with operands := arg :: found.operands } rest

/-! ## Settings -/

/-- The value of an option that may be missing. -/
def optional {α : Type} (f : Found) (name : String) (read : String → Except Halt α) :
    Except Halt (Option α) :=
  match f.value? name with
  | none => .ok none
  | some text => (read text).map some

/-- The settings that options give. -/
def settings (f : Found) : Except Halt Settings := do
  return {
    config := ← optional f "config" path
    parallel := f.has "parallel"
    naive := f.has "naive"
    maxPasses := ← optional f "max-passes" count
    materialize := f.has "materialize" }

/-- Settings from both sides of the command; those on the right count. -/
def Settings.merge (left right : Settings) : Settings where
  config := right.config.orElse fun _ => left.config
  parallel := left.parallel || right.parallel
  naive := left.naive || right.naive
  maxPasses := right.maxPasses.orElse fun _ => left.maxPasses
  materialize := left.materialize || right.materialize

/-! ## Commands -/

/-- Before the command: settings, and requests for the version or for help. -/
def outerLevel : Level where
  flags := ["parallel", "naive", "materialize"]
  valued := ["config", "max-passes"]
  halts := [("version", 'V', .version), ("help", 'h', .help)]

/-- After the command: settings, and the options of the command. -/
def innerLevel (flags valued : List String) : Level where
  flags := outerLevel.flags ++ flags
  valued := outerLevel.valued ++ valued
  halts := [("help", 'h', .help)]

/-- The options of a command, and how they make the command. -/
structure Grammar where
  flags : List String
  valued : List String
  make : Found → Except Halt Command

/-- The commands by name. -/
def grammar? : String → Option Grammar
  | "check" => some ⟨["hierarchy"], [], fun f => .ok (.check (f.has "hierarchy"))⟩
  | "saturate" => some ⟨["derived"], [], fun f => .ok (.saturate (f.has "derived"))⟩
  | "query" => some ⟨["no-saturate"], ["name", "text"], fun f =>
      match f.value? "name", f.value? "text" with
      | some _, some _ => .error .usage
      | name, text => .ok (.query name text (!f.has "no-saturate"))⟩
  | "run" => some ⟨[], [], fun _ => .ok .run⟩
  | "info" => some ⟨["verbose"], [], fun f => .ok (.info (f.has "verbose"))⟩
  | _ => none

/-- Whether help can be given on a topic: on everything, on a command, or on help itself. -/
def isTopic : List String → Bool
  | [] => true
  | [name] => name = "help" || (grammar? name).isSome
  | ["help", name] => name = "help" || (grammar? name).isSome
  | _ => false

/-- Read a command line. -/
def parse (args : List String) : Except Halt Invocation := do
  let (outer, rest) ← scan outerLevel true .none args
  match rest with
  | [] => .error .usage
  | "help" :: topic => .error (if isTopic topic then .help else .usage)
  | name :: rest =>
    match grammar? name with
    | none => .error .usage
    | some grammar =>
      let (inner, _) ← scan (innerLevel grammar.flags grammar.valued) false .none rest
      let left ← settings outer
      let right ← settings inner
      let command ← grammar.make inner
      match inner.operands with
      | [file] => return ⟨left.merge right, command, ← path file⟩
      | _ => .error .usage

end HornOntology.CommandLine
