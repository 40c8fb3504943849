import HornOntology.Data
import HornOntology.Error
import HornOntology.Saturation
import HornOntology.Toml.Reader

set_option autoImplicit false

/-! # Configuration

How a knowledge base saturates: the strategy for rules, and whether the class hierarchy takes part
as rules of its own. -/

namespace HornOntology

/-- The settings of a knowledge base. -/
structure Config where
  semiNaive : Bool
  parallel : Bool
  maxPasses : Option Nat
  /-- Saturate with the class hierarchy, too. -/
  materializeHierarchy : Bool
deriving DecidableEq

namespace Config

/-- The settings without a configuration file. -/
def standard : Config := ⟨true, false, none, false⟩

/-- The strategy for rules. -/
def strategy (c : Config) : Strategy := ⟨c.semiNaive, c.parallel, c.maxPasses⟩

/-- Refuse a limit that allows no pass. -/
def validate (c : Config) : Except EngineError Unit :=
  if c.maxPasses = some 0 then .error (.invalidConfig "max_passes must be at least 1") else .ok ()

/-- A truth value that may be missing. -/
def flag? (name : String) (missing : Bool) (fields : List (String × Data)) : Option Bool := do
  match ← Data.optionalField? name fields with
  | none => some missing
  | some data => data.boolean?

/-- A limit that may be missing. -/
def limit? (name : String) (fields : List (String × Data)) : Option (Option Nat) := do
  match ← Data.optionalField? name fields with
  | none => some none
  | some data => data.natural?.map some

/-- Read settings from a table; those that are missing are standard. -/
def decode? : Data → Option Config
  | .table fields => do
    return {
      semiNaive := ← flag? "semi_naive" standard.semiNaive fields
      parallel := ← flag? "parallel" standard.parallel fields
      maxPasses := ← limit? "max_passes" fields
      materializeHierarchy :=
        ← flag? "materialize_hierarchy" standard.materializeHierarchy fields }
  | _ => none

/-- Read settings from a text. -/
def parse (text : String) : Except Error Config :=
  match Toml.parse? text >>= decode? with
  | none => .error (.document .invalidToml)
  | some config =>
    match config.validate with
    | .ok () => .ok config
    | .error e => .error (.engine e)

/-- Read settings from a file, given the texts of the files that can be read. -/
def load (read : String → Option String) (path : String) : Except Error Config :=
  match read path with
  | none => .error (.document (.unreadable path))
  | some text => parse text

/-- The settings as they are shown to a developer. -/
def summary (c : Config) : String :=
  let limit := match c.maxPasses with
    | none => "None"
    | some n => s!"Some({n})"
  s!"EngineConfig \x7b semi_naive: {c.semiNaive}, parallel: {c.parallel}, " ++
    s!"max_passes: {limit}, materialize_hierarchy: {c.materializeHierarchy} \x7d"

end Config

end HornOntology
