import HornOntology.Builtin
import HornOntology.Registry
import HornOntology.Rule
import HornOntology.Text.TopLevel

set_option autoImplicit false

/-! # Errors

The causes for which the library refuses its input, beside those of the registry and of rule
construction: rule texts, documents, and the engine itself. `Error` is any of them. -/

namespace HornOntology

/-! ## Rule texts -/

/-- What is wrong with the form of a rule or query text. -/
inductive SyntaxProblem where
  | missingArrow
  | repeatedArrow
  | imbalance (cause : Text.Imbalance)
  | emptyAtom
  | missingOpen (atom : String)
  | missingClose (atom : String)
  | missingName (atom : String)
  | emptyArgument (atom : String)
  /-- The head of a query is not a selection. -/
  | notSelection (found : String)
  | selectedConstant (arg : String)
deriving DecidableEq

/-- The wording of a problem. -/
def SyntaxProblem.message : SyntaxProblem → String
  | missingArrow => "missing '->'"
  | repeatedArrow => "more than one '->'"
  | imbalance .strayClose => "unbalanced ')'"
  | imbalance .unclosed => "unbalanced '('"
  | imbalance .unterminated => "unterminated string literal"
  | emptyAtom => "empty atom"
  | missingOpen atom => s!"expected '(' in atom '{atom}'"
  | missingClose atom => s!"atom '{atom}' must end with ')'"
  | missingName atom => s!"atom '{atom}' has no predicate name"
  | emptyArgument atom => s!"empty argument in '{atom}'"
  | notSelection found =>
    s!"query head must be sqwrl:select or sqwrl:selectDistinct, found '{found}'"
  | selectedConstant arg => s!"cannot select constant '{arg}'"

/-- Why a rule or query text was refused. -/
inductive TextError where
  /-- The text `input` does not have the form of a rule or query. -/
  | malformed (input : String) (problem : SyntaxProblem)
  | unknownPredicate (name : String)
  | unknownBuiltin (name : String)
  | arity (name : String) (kind : EntityKind) (expected actual : Nat)
deriving DecidableEq

/-- The texts for an error in a rule or query text. -/
def TextError.diagnostic : TextError → Diagnostic
  | .malformed input problem =>
    { message := s!"syntax error in '{input}': {problem.message}"
      code := "ontorule::parse::syntax"
      help := "Rules look like `Person(?x) ^ speaksLanguage(?x, English) -> " ++
        "EnglishSpeaker(?x)`; queries end in `-> sqwrl:select(?x)`." }
  | .unknownPredicate name =>
    { message := s!"unknown predicate '{name}'"
      code := "ontorule::parse::unknown_predicate"
      help := "Atom names must be declared classes or properties." }
  | .unknownBuiltin name =>
    { message := s!"unknown builtin '{name}'"
      code := "ontorule::parse::unknown_builtin"
      help := "Supported builtins: swrlb:equal, swrlb:notEqual, swrlb:lessThan, " ++
        "swrlb:lessThanOrEqual, swrlb:greaterThan, swrlb:greaterThanOrEqual." }
  | .arity name kind expected actual =>
    { message := s!"'{name}' is a {kind.display} and takes {expected} argument(s), got {actual}"
      code := "ontorule::parse::arity"
      help := "Class atoms take one argument, property atoms take two." }

/-! ## Documents and the engine -/

/-- Why a document was refused. -/
inductive DocumentError where
  /-- There is no readable text at the path. -/
  | unreadable (path : String)
  | invalidJson
  | invalidToml
  /-- The file name has none of the known extensions. -/
  | unsupportedFormat (path : String)
deriving DecidableEq

/-- The texts for an error in a document. -/
def DocumentError.diagnostic : DocumentError → Diagnostic
  | .unreadable path =>
    { message := s!"failed to read {path}"
      code := "ontorule::document::io"
      help := "Check that the file exists and is readable." }
  | .invalidJson =>
    { message := "invalid JSON knowledge base"
      code := "ontorule::document::json"
      help := "The document must be an object with declarations, axioms, facts, rules and " ++
        "queries." }
  | .invalidToml =>
    { message := "invalid TOML"
      code := "ontorule::document::toml"
      help := "Check the TOML syntax and the field names." }
  | .unsupportedFormat path =>
    { message := s!"unsupported document format: {path}"
      code := "ontorule::document::format"
      help := "Use a .json or .toml file." }

/-- What the engine refuses. -/
inductive EngineError where
  | queryNotFound (name : String)
  | invalidConfig (problem : String)
deriving DecidableEq

/-- The texts for an error of the engine. -/
def EngineError.diagnostic : EngineError → Diagnostic
  | .queryNotFound name =>
    { message := s!"no query named '{name}'"
      code := "ontorule::engine::query_not_found"
      help := "Register the query with `Engine::add_query_text` or in the document first." }
  | .invalidConfig problem =>
    { message := s!"invalid configuration: {problem}"
      code := "ontorule::engine::invalid_config"
      help := s!"Check the EngineConfig fields. {problem}" }

/-! ## All errors -/

/-- Any error of the library. -/
inductive Error where
  | registry (cause : RegistryError)
  | rule (cause : RuleError)
  | matching (cause : MatchError)
  | text (cause : TextError)
  | document (cause : DocumentError)
  | engine (cause : EngineError)
deriving DecidableEq

/-- The texts for an error. -/
def Error.diagnostic : Error → Diagnostic
  | registry cause => cause.diagnostic
  | rule cause => cause.diagnostic
  | matching cause => cause.diagnostic
  | text cause => cause.diagnostic
  | document cause => cause.diagnostic
  | engine cause => cause.diagnostic

end HornOntology
