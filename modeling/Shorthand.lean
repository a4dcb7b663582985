import Shorthand.CommandLine.Arguments
import Shorthand.CommandLine.Run
import Shorthand.Config.Key
import Shorthand.Config.Layer
import Shorthand.Config.Settings
import Shorthand.Config.Value
import Shorthand.Data
import Shorthand.Decimal.Basic
import Shorthand.Decimal.Double
import Shorthand.Decimal.Shortest
import Shorthand.Event
import Shorthand.Expansion
import Shorthand.Format.Registry
import Shorthand.Format.Standard
import Shorthand.Grammar.Error
import Shorthand.Grammar.Parser
import Shorthand.Json.Magnitude
import Shorthand.Json.Reader
import Shorthand.Json.Snapshot
import Shorthand.Json.Writer
import Shorthand.Main
import Shorthand.Markup.Numbering
import Shorthand.Markup.Render
import Shorthand.NameMap
import Shorthand.Outline
import Shorthand.Proofs.Grammar.Acceptance
import Shorthand.Proofs.Grammar.Beginnings
import Shorthand.Proofs.Grammar.Completeness
import Shorthand.Proofs.Grammar.Delivery
import Shorthand.Proofs.Grammar.Derivation
import Shorthand.Proofs.Grammar.Errors
import Shorthand.Proofs.Grammar.Lookahead
import Shorthand.Proofs.Grammar.Outcome
import Shorthand.Proofs.Grammar.Phases
import Shorthand.Proofs.Grammar.Productions
import Shorthand.Proofs.Grammar.Reading
import Shorthand.Proofs.Grammar.Soundness
import Shorthand.Proofs.Markup.Expansion
import Shorthand.Proofs.Markup.Groups
import Shorthand.Proofs.Markup.Templates
import Shorthand.Proofs.Markup.Writing
import Shorthand.Proofs.Text.Runs
import Shorthand.Proofs.Token.Ahead
import Shorthand.Proofs.Token.Joining
import Shorthand.Proofs.Token.Written
import Shorthand.Proofs.Tree.Arena
import Shorthand.Proofs.Tree.Closing
import Shorthand.Proofs.Tree.Denotation
import Shorthand.Proofs.Tree.Finished
import Shorthand.Proofs.Tree.Growth
import Shorthand.Proofs.Tree.Layout
import Shorthand.Proofs.Tree.Links
import Shorthand.Proofs.Tree.Making
import Shorthand.Proofs.Tree.Nesting
import Shorthand.Proofs.Tree.Placement
import Shorthand.Proofs.Tree.Refusals
import Shorthand.Proofs.Tree.Runs
import Shorthand.Proofs.Tree.Simulation
import Shorthand.Proofs.Tree.Tidy
import Shorthand.Proofs.Tree.Walks
import Shorthand.Proofs.Tree.Zipper
import Shorthand.Text.Blank
import Shorthand.Text.Bounds
import Shorthand.Text.Case
import Shorthand.Text.Digit
import Shorthand.Text.Hidden
import Shorthand.Text.Lowercase
import Shorthand.Text.Quoted
import Shorthand.Token.Basic
import Shorthand.Token.Cursor
import Shorthand.Token.Log
import Shorthand.Token.Scanner
import Shorthand.Toml.Document
import Shorthand.Toml.Moment
import Shorthand.Toml.NodeValue
import Shorthand.Toml.Number
import Shorthand.Toml.Quoted
import Shorthand.Toml.Reader
import Shorthand.Toml.Table
import Shorthand.Toml.Value
import Shorthand.Tree.Basic
import Shorthand.Tree.Builder
import Shorthand.Tree.Expectation
import Shorthand.Tree.Snapshot
import Shorthand.Yaml.Scalar
import Shorthand.Yaml.Writer
import Shorthand.Proofs.Token.Spelling
import Shorthand.Proofs.Token.Spans
import Shorthand.Proofs.Token.Printing
import Shorthand.Proofs.Grammar.Dependence
import Shorthand.Proofs.Tree.Order
import Shorthand.Proofs.Token.Counts
import Shorthand.Proofs.Grammar.Interruption
import Shorthand.Proofs.Markup.Parentheses
import Shorthand.Proofs.Tree.Leaves
import Shorthand.Proofs.Markup.Balance
import Shorthand.Proofs.Json.Roundtrip
import Shorthand.Proofs.CommandLine.Batch
import Shorthand.Proofs.Markup.Parts
import Shorthand.Proofs.Markup.Quotes
import Shorthand.Proofs.Markup.Turning
import Shorthand.Proofs.Markup.Leftovers
import Shorthand.Proofs.Markup.Attributes
import Shorthand.Proofs.Tree.Traces
import Shorthand.Proofs.Tree.Lateness
import Shorthand.Proofs.Tree.Merging
import Shorthand.Proofs.Text.Bytes
import Shorthand.Proofs.Token.Stream
import Shorthand.Proofs.Format.Registration
import Shorthand.Proofs.Format.Snapshots
import Shorthand.Proofs.Outline.Lines
import Shorthand.Proofs.Outline.Shape
import Shorthand.Proofs.Tree.Description
import Shorthand.Proofs.Config.Layering
import Shorthand.Proofs.Grammar.Declining
import Shorthand.Proofs.Grammar.Retreats
import Shorthand.Proofs.Grammar.Calls
