import TokenShell.CommandLine
import TokenShell.Config.Load
import TokenShell.Log.Report
import TokenShell.Main
import TokenShell.Number.Decimal
import TokenShell.Number.Integer
import TokenShell.Number.Numeral
import TokenShell.Proofs.Basic
import TokenShell.Proofs.Binding
import TokenShell.Proofs.Cascade
import TokenShell.Proofs.Commands
import TokenShell.Proofs.Conservation
import TokenShell.Proofs.Derivation
import TokenShell.Proofs.Discarding
import TokenShell.Proofs.Evaluation
import TokenShell.Proofs.Framing
import TokenShell.Proofs.Growth
import TokenShell.Proofs.Lockstep
import TokenShell.Proofs.Nesting
import TokenShell.Proofs.Phases
import TokenShell.Proofs.Precedence
import TokenShell.Proofs.Reordering
import TokenShell.Proofs.Run
import TokenShell.Proofs.Schedule
import TokenShell.Proofs.Scoping
import TokenShell.Proofs.Seating
import TokenShell.Proofs.Settling
import TokenShell.Proofs.Shape
import TokenShell.Proofs.Stage
import TokenShell.Proofs.Staging
import TokenShell.Host.LineEditor
import TokenShell.Host.System
import TokenShell.Host.Terminal
import TokenShell.Text.Blank
import TokenShell.Text.Control
import TokenShell.Text.Lowercase
import TokenShell.Text.Quoted
import TokenShell.Token.Line
import TokenShell.Token.Listing
import TokenShell.Tree.Analysis
import TokenShell.Tree.Cause
import TokenShell.Tree.Completion
import TokenShell.Tree.Evaluation
import TokenShell.Tree.Inspect
import TokenShell.Tree.Print
import TokenShell.Tree.Progress
import TokenShell.Tree.Reorder
import TokenShell.Value.Operation
import TokenShell.Proofs.Places
import TokenShell.Proofs.Links
import TokenShell.Proofs.Mentions
import TokenShell.Proofs.Resolution
import TokenShell.Proofs.Upkeep
import TokenShell.Proofs.Delivery
import TokenShell.Proofs.Registry
import TokenShell.Proofs.Timing
import TokenShell.Proofs.Lexical
import TokenShell.Proofs.Objections
import TokenShell.Proofs.Lineage
import TokenShell.Proofs.Capture
import TokenShell.Proofs.Writing
import TokenShell.Proofs.Lifecycle
import TokenShell.Proofs.Queue
import TokenShell.Proofs.Grounding
import TokenShell.Proofs.Rules
import TokenShell.Proofs.Definedness
import TokenShell.Proofs.Lexemes
import TokenShell.Proofs.Removal
import TokenShell.Proofs.Trimming
import TokenShell.Proofs.Layout
import TokenShell.Proofs.Simulation
import TokenShell.Proofs.Scripts
import TokenShell.Proofs.Requests
import TokenShell.Proofs.Relaying
import TokenShell.Proofs.Sharing
import TokenShell.Proofs.Matching
import TokenShell.Proofs.Spine
import TokenShell.Proofs.Prompting
import TokenShell.Proofs.Exactness
import TokenShell.Proofs.Attachment
import TokenShell.Proofs.Positions
import TokenShell.Proofs.Permanence
import TokenShell.Proofs.Depth
import TokenShell.Proofs.Canonical
import TokenShell.Proofs.Quotation
import TokenShell.Proofs.Integrity
import TokenShell.Proofs.Integers
import TokenShell.Proofs.Assembly
import TokenShell.Proofs.Joining
