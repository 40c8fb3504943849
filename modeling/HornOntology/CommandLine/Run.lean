import HornOntology.CommandLine.Arguments
import HornOntology.CommandLine.Report
import HornOntology.Document.Source

set_option autoImplicit false

/-! # Running commands

A command line is run on the texts of the files that can be read. The outcome is an exit code,
what is printed, and a message if the run failed. -/

namespace HornOntology.CommandLine

/-- How a run ended. -/
structure Outcome where
  exit : UInt32
  /-- What is printed on standard output. -/
  output : String
  /-- What is printed on standard error. -/
  message : String
deriving DecidableEq

/-- Why a command could not be run. -/
inductive Failure where
  | error (cause : Error)
  /-- A query command has neither a name nor a text. -/
  | noQuery
deriving DecidableEq

/-- The message for a failure. -/
def Failure.message : Failure → String
  | error cause => cause.diagnostic.message ++ "\n  help: " ++ cause.diagnostic.help
  | noQuery => "pass --name <query> or --text <query>"

/-- The configuration for a run: that of the file, as overruled by the settings. -/
def configuration (read : String → Option String) (s : Settings) : Except Error Config := do
  let base ← match s.config with
    | none => .ok Config.standard
    | some path => Config.load read path
  return {
    semiNaive := base.semiNaive && !s.naive
    parallel := base.parallel || s.parallel
    maxPasses := s.maxPasses.orElse fun _ => base.maxPasses
    materializeHierarchy := base.materializeHierarchy || s.materialize }

/-- A knowledge base with the contents of a file. -/
def loadFile (read : String → Option String) (config : Config) (file : String) :
    Except Error KnowledgeBase := do
  let kb ← (KnowledgeBase.create config).mapError .engine
  let document ← (Document.load read file).mapError .document
  match (KnowledgeM.load document).run kb with
  | (.ok _, kb) => return kb
  | (.error e, _) => .error e

/-- The answer to the query that a command asks for. -/
def answer (kb : KnowledgeBase) (name text : Option String) :
    Except Failure (KnowledgeBase × Answer) :=
  match name, text with
  | some name, _ => do
    let a ← (kb.runNamed name).mapError fun e => .error (.engine e)
    return (kb, a)
  | none, some text =>
    match Query.parse kb.registry "ad-hoc" text with
    | (.error e, _) => .error (.error e)
    | (.ok query, registry) =>
      let kb := { kb with registry }
      .ok (kb, kb.run query)
  | none, none => .error .noQuery

/-- The lines that a command prints. -/
def lines (kb : KnowledgeBase) : Command → Except Failure (List String)
  | .check hierarchy =>
    let c := kb.classify
    .ok (Report.classification kb c ++ if hierarchy then Report.hierarchy kb c.hierarchy else [])
  | .saturate derived =>
    let (s, kb) := kb.saturate
    .ok (Report.saturation s ++ if derived then Report.derivations kb s else [])
  | .query name text saturateFirst => do
    let kb := if saturateFirst then kb.saturate.2 else kb
    let (kb, a) ← answer kb name text
    return Report.answer kb a
  | .run =>
    let c := kb.classify
    let (s, saturated) := kb.saturate
    let answers := saturated.runAll.flatMap fun a => "" :: Report.answer saturated a
    .ok (Report.classification kb c ++
      ["", s!"Derived {s.applied} facts in {s.passes} passes."] ++ answers)
  | .info verbose => .ok (kb.info.display :: if verbose then Report.contents kb else [])

/-- Run a command that is understood. -/
def execute (read : String → Option String) (i : Invocation) : Except Failure (List String) := do
  let config ← (configuration read i.settings).mapError .error
  let kb ← (loadFile read config i.file).mapError .error
  lines kb i.command

/-- The text of the version. -/
def version : String := "ontorule 0.1.0\n"

/-- How to call the program. -/
def usage : String :=
  "Usage: ontorule [--config <file>] [--parallel] [--naive] [--max-passes <n>] [--materialize] " ++
  "<command> <file>\n" ++
  "Commands: check [--hierarchy], saturate [--derived], query [--name <query> | --text <query>] " ++
  "[--no-saturate], run, info [--verbose]\n"

/-- Run a command line. -/
def run (read : String → Option String) (args : List String) : Outcome :=
  match parse args with
  | .error .usage => ⟨2, "", usage⟩
  | .error .version => ⟨0, version, ""⟩
  | .error .help => ⟨0, usage, ""⟩
  | .ok invocation =>
    match execute read invocation with
    | .ok lines => ⟨0, String.join (lines.map (· ++ "\n")), ""⟩
    | .error failure => ⟨1, "", failure.message ++ "\n"⟩

/-- The files that a command line may read. -/
def paths (args : List String) : List String :=
  match parse args with
  | .ok i => i.settings.config.toList ++ [i.file]
  | .error _ => []

end HornOntology.CommandLine
