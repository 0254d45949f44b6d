import CodeAtlas.Build
import CodeAtlas.Command.Arguments
import CodeAtlas.Command.Basic
import CodeAtlas.Command.Duration
import CodeAtlas.Command.Failure
import CodeAtlas.Command.Project
import CodeAtlas.Command.Report
import CodeAtlas.Diagnostic
import CodeAtlas.Document
import CodeAtlas.Failure
import CodeAtlas.Graph.Basic
import CodeAtlas.Graph.Node
import CodeAtlas.Graph.Trace
import CodeAtlas.Ignore.Glob
import CodeAtlas.Ignore.Rules
import CodeAtlas.Interleaving
import CodeAtlas.Json.Brief
import CodeAtlas.Json.Magnitude
import CodeAtlas.Json.Overlay
import CodeAtlas.Json.Reader
import CodeAtlas.Json.Relaxed
import CodeAtlas.Json.Value
import CodeAtlas.Json.Writer
import CodeAtlas.Link.Discovery
import CodeAtlas.Link.Origin
import CodeAtlas.Link.Plan
import CodeAtlas.Main
import CodeAtlas.Path.Clean
import CodeAtlas.Project.FileTree
import CodeAtlas.Project.PathMapping
import CodeAtlas.Project.Scan
import CodeAtlas.Project.Settings
import CodeAtlas.Proofs.Build.Accounts
import CodeAtlas.Proofs.Build.Addresses
import CodeAtlas.Proofs.Build.Comparison
import CodeAtlas.Proofs.Build.Edges
import CodeAtlas.Proofs.Build.EntryPoints
import CodeAtlas.Proofs.Build.GivenUp
import CodeAtlas.Proofs.Build.Nodes
import CodeAtlas.Proofs.Build.Origins
import CodeAtlas.Proofs.Build.Phases
import CodeAtlas.Proofs.Build.Reports
import CodeAtlas.Proofs.Build.Uses
import CodeAtlas.Proofs.Graph.Address
import CodeAtlas.Proofs.Graph.Distance
import CodeAtlas.Proofs.Graph.Document
import CodeAtlas.Proofs.Graph.Duality
import CodeAtlas.Proofs.Graph.Extension
import CodeAtlas.Proofs.Graph.Growth
import CodeAtlas.Proofs.Graph.Sweep
import CodeAtlas.Proofs.Graph.Tally
import CodeAtlas.Proofs.Ignore.Marked
import CodeAtlas.Proofs.Json.Brief
import CodeAtlas.Proofs.Json.Grammar
import CodeAtlas.Proofs.Json.Overlay
import CodeAtlas.Proofs.Json.ReadBack
import CodeAtlas.Proofs.Json.Shapes
import CodeAtlas.Proofs.Json.Tokens
import CodeAtlas.Proofs.Json.TrailingCommas
import CodeAtlas.Proofs.Link.Binding
import CodeAtlas.Proofs.Link.Course
import CodeAtlas.Proofs.Link.Earlier
import CodeAtlas.Proofs.Link.Edges
import CodeAtlas.Proofs.Link.Extension
import CodeAtlas.Proofs.Link.Inquiry
import CodeAtlas.Proofs.Link.Origin
import CodeAtlas.Proofs.Link.Plan
import CodeAtlas.Proofs.Link.Precedence
import CodeAtlas.Proofs.Path.Canonical
import CodeAtlas.Proofs.Path.Inside
import CodeAtlas.Proofs.Path.Normal
import CodeAtlas.Proofs.Path.Pieces
import CodeAtlas.Proofs.Path.Recleaning
import CodeAtlas.Proofs.Path.Relative
import CodeAtlas.Proofs.Path.Segments
import CodeAtlas.Proofs.Project.Completion
import CodeAtlas.Proofs.Project.Directions
import CodeAtlas.Proofs.Project.Entries
import CodeAtlas.Proofs.Project.Fields
import CodeAtlas.Proofs.Project.Layers
import CodeAtlas.Proofs.Project.Loading
import CodeAtlas.Proofs.Project.Mapping
import CodeAtlas.Proofs.Project.Names
import CodeAtlas.Proofs.Project.Precedence
import CodeAtlas.Proofs.Project.Root
import CodeAtlas.Proofs.Project.Scan
import CodeAtlas.Proofs.Project.Start
import CodeAtlas.Proofs.Resolution.Boundary
import CodeAtlas.Proofs.Resolution.ExactNames
import CodeAtlas.Proofs.Resolution.Packages
import CodeAtlas.Proofs.Resolution.Repetition
import CodeAtlas.Proofs.Resolution.Substitution
import CodeAtlas.Proofs.Script.Declarations
import CodeAtlas.Proofs.Script.Enclosing
import CodeAtlas.Proofs.Script.OwnExports
import CodeAtlas.Proofs.Script.Owners
import CodeAtlas.Proofs.Script.Places
import CodeAtlas.Proofs.Script.Scopes
import CodeAtlas.Proofs.Session.SingleFlight
import CodeAtlas.Proofs.Source.Fates
import CodeAtlas.Proofs.Source.Index
import CodeAtlas.Proofs.Source.Keys
import CodeAtlas.Proofs.Source.Parsing
import CodeAtlas.Proofs.Text.Bytes
import CodeAtlas.Proofs.Text.Marks
import CodeAtlas.Resolution.Aliases
import CodeAtlas.Resolution.Candidates
import CodeAtlas.Resolution.Resolver
import CodeAtlas.Script.Declared
import CodeAtlas.Script.Dialect
import CodeAtlas.Script.Exported
import CodeAtlas.Script.Grammar.Bindings
import CodeAtlas.Script.Grammar.Elements
import CodeAtlas.Script.Grammar.Expressions
import CodeAtlas.Script.Grammar.Functions
import CodeAtlas.Script.Grammar.Modules
import CodeAtlas.Script.Grammar.Reading
import CodeAtlas.Script.Grammar.Statements
import CodeAtlas.Script.Grammar.Types
import CodeAtlas.Script.Interface
import CodeAtlas.Script.Mention
import CodeAtlas.Script.Reader
import CodeAtlas.Script.Token
import CodeAtlas.Script.Tree
import CodeAtlas.Session
import CodeAtlas.Source.FileIndex
import CodeAtlas.Source.Kind
import CodeAtlas.Source.Loading
import CodeAtlas.Text.Blank
import CodeAtlas.Text.Bytes
import CodeAtlas.Text.Cut
import CodeAtlas.Text.Identifier
import CodeAtlas.Text.PairOrder
