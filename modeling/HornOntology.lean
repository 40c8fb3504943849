import HornOntology.Answer
import HornOntology.Atom
import HornOntology.Axiom
import HornOntology.Binding
import HornOntology.Builtin
import HornOntology.Classification
import HornOntology.CommandLine.Arguments
import HornOntology.CommandLine.Report
import HornOntology.CommandLine.Run
import HornOntology.Config
import HornOntology.Data
import HornOntology.Diagnostic
import HornOntology.Document
import HornOntology.Document.Source
import HornOntology.Entity
import HornOntology.Error
import HornOntology.Fact
import HornOntology.FactStore
import HornOntology.Graph
import HornOntology.Grouping
import HornOntology.Hierarchy
import HornOntology.Json.Reader
import HornOntology.Json.Token
import HornOntology.KnowledgeBase
import HornOntology.Main
import HornOntology.Matching
import HornOntology.Number.Binary64
import HornOntology.Number.Decimal
import HornOntology.Number.Double
import HornOntology.Proofs.Answers
import HornOntology.Proofs.Balance
import HornOntology.Proofs.Calls
import HornOntology.Proofs.Claiming
import HornOntology.Proofs.Classification
import HornOntology.Proofs.Computation
import HornOntology.Proofs.Constants
import HornOntology.Proofs.Contradictions
import HornOntology.Proofs.Cuts
import HornOntology.Proofs.Encoding
import HornOntology.Proofs.Exchange
import HornOntology.Proofs.Exhaustion
import HornOntology.Proofs.FactStore
import HornOntology.Proofs.Filtering
import HornOntology.Proofs.Graph
import HornOntology.Proofs.Growth
import HornOntology.Proofs.Hierarchy
import HornOntology.Proofs.Interning
import HornOntology.Proofs.Kinds
import HornOntology.Proofs.KnowledgeBase
import HornOntology.Proofs.Loading
import HornOntology.Proofs.Matching
import HornOntology.Proofs.Materialization
import HornOntology.Proofs.Model
import HornOntology.Proofs.Ordering
import HornOntology.Proofs.Placement
import HornOntology.Proofs.PlainNames
import HornOntology.Proofs.Plan
import HornOntology.Proofs.Quoting
import HornOntology.Proofs.Reading
import HornOntology.Proofs.Reclassification
import HornOntology.Proofs.Registration
import HornOntology.Proofs.Rendering
import HornOntology.Proofs.RoundTrip
import HornOntology.Proofs.Saturation.Account
import HornOntology.Proofs.Saturation.Fixpoint
import HornOntology.Proofs.Saturation.Interleaving
import HornOntology.Proofs.Saturation.Pass
import HornOntology.Proofs.Saturation.Run
import HornOntology.Proofs.Saturation.Skipping
import HornOntology.Proofs.Saturation.Strategies
import HornOntology.Proofs.Slots
import HornOntology.Proofs.Solutions
import HornOntology.Proofs.Splitting
import HornOntology.Proofs.StandIns
import HornOntology.Proofs.Subsumption
import HornOntology.Registry
import HornOntology.Render
import HornOntology.Rule
import HornOntology.RuleText
import HornOntology.Saturation
import HornOntology.Text.Blank
import HornOntology.Text.Quoted
import HornOntology.Text.TopLevel
import HornOntology.Text.Unprintable
import HornOntology.Toml.Lexical
import HornOntology.Toml.Reader
import HornOntology.Toml.Scalar
import HornOntology.Toml.Tree
