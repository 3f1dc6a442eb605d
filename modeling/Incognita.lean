import Incognita.Text.Ranges
import Incognita.Text.Blank
import Incognita.Text.Letter
import Incognita.Text.Printable
import Incognita.Text.Utf8
import Incognita.Text.Decimal
import Incognita.Text.Quoted
import Incognita.Text.Base64
import Incognita.Token
import Incognita.Token.Lexer
import Incognita.Tree
import Incognita.Tree.Text
import Incognita.Tree.Outline
import Incognita.Tree.Diagnostic
import Incognita.Tree.Parser
import Incognita.Value
import Incognita.Store
import Incognita.Eval.Operators
import Incognita.Eval
import Incognita.Evaluator
import Incognita.Log
import Incognita.Log.Line
import Incognita.Settings
import Incognita.Session
import Incognita.Yaml.Cell
import Incognita.Yaml.Fault
import Incognita.Yaml.Token
import Incognita.Yaml.Scalar
import Incognita.Yaml.Scalar.Block
import Incognita.Yaml.Property
import Incognita.Yaml.Token.Lexer
import Incognita.Yaml.Node
import Incognita.Yaml.Node.Parser
import Incognita.Yaml.Numeral
import Incognita.Yaml.Timestamp
import Incognita.Yaml.Datum
import Incognita.Yaml.Merge
import Incognita.Files
import Incognita.Settings.Mismatch
import Incognita.Settings.Document
import Incognita.Settings.Load
import Incognita.CommandLine.Options
import Incognita.CommandLine.Libraries
import Incognita.CommandLine.Interactive
import Incognita.CommandLine.Program
import Incognita.Main
import Incognita.Proofs.Tasks
import Incognita.Proofs.Reading.Rules
import Incognita.Proofs.Reading.Sound
import Incognita.Proofs.Reading.Exact
import Incognita.Proofs.Shape
import Incognita.Proofs.StrayBreaks
import Incognita.Proofs.Grammar.Derivation
import Incognita.Proofs.Grammar.Greedy
import Incognita.Proofs.Grammar.Acceptance
import Incognita.Proofs.Spacing
import Incognita.Proofs.Rendering.Written
import Incognita.Proofs.Rendering.Stamps
import Incognita.Proofs.Reading.Filled
import Incognita.Proofs.Reading.InOrder
import Incognita.Proofs.Rendering.RoundTrip
import Incognita.Proofs.Rendering.Gaps
import Incognita.Proofs.Rendering.Parameters
import Incognita.Proofs.Rendering.BlockFree
import Incognita.Proofs.Jobs
import Incognita.Proofs.Plans
import Incognita.Proofs.ErrorsEnd
import Incognita.Proofs.Evaluations
import Incognita.Proofs.DepthLimit
import Incognita.Proofs.Outcomes
import Incognita.Proofs.Arithmetic
import Incognita.Proofs.LogicalLaws
import Incognita.Proofs.Unrolling
import Incognita.Proofs.Operators
import Incognita.Proofs.Scopes
import Incognita.Proofs.Restoring
import Incognita.Proofs.Sessions
import Incognita.Proofs.Safety
import Incognita.Proofs.Frame
import Incognita.Proofs.Reachable
import Incognita.Proofs.Parts
import Incognita.Proofs.Realm
import Incognita.Proofs.ScopeWrites
import Incognita.Proofs.Termination
import Incognita.Proofs.Signals
import Incognita.Proofs.PartialTrees
import Incognita.Proofs.Matching
import Incognita.Proofs.LexicalScope
import Incognita.Proofs.Concatenation
import Incognita.Proofs.Piecewise
import Incognita.Proofs.Lexemes
import Incognita.Proofs.Respacing
import Incognita.Proofs.Semicolons
import Incognita.Proofs.Outlines.Forms
import Incognita.Proofs.Outlines.Trees
import Incognita.Proofs.Outlines.Decoding
import Incognita.Proofs.Stacks.Machine
import Incognita.Proofs.Stacks.Agreement
import Incognita.Proofs.Stacks.Balance
import Incognita.Proofs.Requests
import Incognita.Proofs.CallDepth
import Incognita.Proofs.Integers
import Incognita.Proofs.OptionSpellings
import Incognita.Proofs.Histories
import Incognita.Proofs.Seams
