import StaleQuery.Text.Ranges
import StaleQuery.Text.Blank
import StaleQuery.Text.Casing
import StaleQuery.Text.Lowercase
import StaleQuery.Text.Charset
import StaleQuery.Text.Icon
import StaleQuery.Text.Printable
import StaleQuery.Text.Quoted
import StaleQuery.Text.Split
import StaleQuery.Text.Utf8
import StaleQuery.Text.Width
import StaleQuery.Number.Rounding
import StaleQuery.Number.Binary64
import StaleQuery.Number.Shortest
import StaleQuery.Json.Basic
import StaleQuery.Json.Writer
import StaleQuery.Json.Display
import StaleQuery.Json.Number
import StaleQuery.Json.Reader
import StaleQuery.Tree.Basic
import StaleQuery.Model.Node
import StaleQuery.Model.Lowering
import StaleQuery.Model.Search
import StaleQuery.Rule.Registration
import StaleQuery.Rule.Diagnostic
import StaleQuery.Rule.Lint
import StaleQuery.Rule.Record
import StaleQuery.Source.Token
import StaleQuery.Source.Parser
import StaleQuery.Source.Literal
import StaleQuery.Source.Pattern
import StaleQuery.Source.Signature
import StaleQuery.Source.TypeExpression
import StaleQuery.Source.Member
import StaleQuery.Source.Expression
import StaleQuery.Source.Markup
import StaleQuery.Source.Statement
import StaleQuery.Source.Linkage
import StaleQuery.Source.Program
import StaleQuery.Source.Toolchain
import StaleQuery.Files.Path
import StaleQuery.Files.Time
import StaleQuery.Files.Ledger
import StaleQuery.Files.Basic
import StaleQuery.Files.Change
import StaleQuery.Files.Discovery
import StaleQuery.Cache.Store
import StaleQuery.Cache.Archive
import StaleQuery.Cache.Handle
import StaleQuery.Cache.Key
import StaleQuery.Cache.Lint
import StaleQuery.Settings.Assignments
import StaleQuery.Settings.Environment
import StaleQuery.Settings.Basic
import StaleQuery.Console.Markup
import StaleQuery.Console.Wrap
import StaleQuery.Console.Table
import StaleQuery.Console.Terminal
import StaleQuery.Console.Plain
import StaleQuery.Command.Options
import StaleQuery.Command.Report
import StaleQuery.Command.Run
import StaleQuery.Project.State
import StaleQuery.Main
import StaleQuery.Proofs.Model.WellFormed
import StaleQuery.Proofs.Model.Events
import StaleQuery.Proofs.Model.Aliases
import StaleQuery.Proofs.Model.Lowering
import StaleQuery.Proofs.Model.Search
import StaleQuery.Proofs.Model.Hiding
import StaleQuery.Proofs.Rule.Registration
import StaleQuery.Proofs.Tree.Walk
import StaleQuery.Proofs.Rule.CallSites
import StaleQuery.Proofs.Model.Provenance
import StaleQuery.Proofs.Rule.SilentPass
import StaleQuery.Proofs.Json.RoundTrip
import StaleQuery.Proofs.Number.Nearest
import StaleQuery.Proofs.Json.Numbers
import StaleQuery.Proofs.Files.Paths
import StaleQuery.Proofs.Files.Growth
import StaleQuery.Proofs.Text.Icons
import StaleQuery.Proofs.Console.Escape
import StaleQuery.Proofs.Cache.Key
import StaleQuery.Proofs.Cache.Lookup
import StaleQuery.Proofs.Cache.Commands
import StaleQuery.Proofs.Cache.Transparency
import StaleQuery.Proofs.Model.Depth
import StaleQuery.Proofs.Model.Chains
import StaleQuery.Proofs.Rule.Overflow
import StaleQuery.Proofs.Rule.Faultless
import StaleQuery.Proofs.Rule.Prefilter
import StaleQuery.Proofs.Rule.OptionalCalls
import StaleQuery.Proofs.Rule.Renaming
import StaleQuery.Proofs.Model.Limits
import StaleQuery.Proofs.Model.Brackets
import StaleQuery.Proofs.Model.Parentheses
import StaleQuery.Proofs.Model.SealedParts
import StaleQuery.Proofs.Tree.Addresses
import StaleQuery.Proofs.Rule.Anchors
import StaleQuery.Proofs.Rule.SealedParts
import StaleQuery.Proofs.Files.Support
import StaleQuery.Proofs.Cache.Interleaving
import StaleQuery.Proofs.Rule.Comments
import StaleQuery.Proofs.Files.Targets
import StaleQuery.Proofs.Files.Discovery
import StaleQuery.Proofs.Command.Outcome
import StaleQuery.Proofs.Cache.Rows
import StaleQuery.Proofs.Cache.Histories
import StaleQuery.Proofs.Cache.Damage
import StaleQuery.Proofs.Cache.Statistics
import StaleQuery.Proofs.Json.Indented
import StaleQuery.Proofs.Command.JsonReport
import StaleQuery.Proofs.Command.Exclusion
import StaleQuery.Proofs.Settings.Reloading
