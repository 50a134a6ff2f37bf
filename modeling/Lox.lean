import Lox.CommandLine
import Lox.Diagnostics
import Lox.Evaluation
import Lox.Expr
import Lox.Files
import Lox.Host
import Lox.Machine
import Lox.Main
import Lox.Native
import Lox.Number
import Lox.Number.Decimal
import Lox.Number.Nearest
import Lox.Number.Text
import Lox.Operator
import Lox.Parse.Expr
import Lox.Parse.Program
import Lox.Parse.Rule
import Lox.Parse.Stmt
import Lox.Resolution
import Lox.RuntimeError
import Lox.Scopes
import Lox.Session
import Lox.Stmt
import Lox.Text.Quoted
import Lox.Text.Utf8
import Lox.Token
import Lox.Token.Scan
import Lox.Value
import Lox.Proofs.Grammar
import Lox.Proofs.Parse.Outcome
import Lox.Proofs.Parse.Sound
import Lox.Proofs.Parse.Complete
import Lox.Proofs.Parse.Program
import Lox.Proofs.Flatten
import Lox.Proofs.Run.Task
import Lox.Proofs.Run.Discipline
import Lox.Proofs.Scoping.Parsed
import Lox.Proofs.Scoping.World
import Lox.Proofs.Scoping.Steps
import Lox.Proofs.Scoping.Ready
import Lox.Proofs.Scoping.Preservation
import Lox.Proofs.Parse.Supply
import Lox.Proofs.Scoping.History
import Lox.Proofs.Scoping.Agreement
import Lox.Proofs.Scoping.Binding
import Lox.Proofs.Scoping.Initializers
import Lox.Proofs.Session.Verdict
import Lox.Proofs.Session.Identities
import Lox.Proofs.Token.Join
import Lox.Proofs.Run.Alike
import Lox.Proofs.Run.Simulation
import Lox.Proofs.Run.Pairing
import Lox.Proofs.Run.Matching
import Lox.Proofs.Parse.Moved
import Lox.Proofs.Scoping.Moved
import Lox.Proofs.Session.Sourced
import Lox.Proofs.Session.Batch
import Lox.Proofs.Node
import Lox.Proofs.Scoping.Rules
import Lox.Proofs.Run.Realm
import Lox.Proofs.Run.Confined
import Lox.Proofs.Run.Territory
import Lox.Proofs.Run.Footprint
import Lox.Proofs.Run.Termination
import Lox.Proofs.Written
import Lox.Proofs.Scoping.Spelling
import Lox.Proofs.Scoping.Lineage
import Lox.Proofs.Run.Timeline
import Lox.Proofs.Scoping.Activation
import Lox.Proofs.Session.Chronicle
import Lox.Proofs.Session.Receiver
import Lox.Proofs.Run.Faults
import Lox.Proofs.Run.Located
import Lox.Proofs.Run.Limit
import Lox.Proofs.Session.Limit
import Lox.Proofs.Run.Returns
import Lox.Proofs.Session.Unreached
import Lox.Proofs.Parse.Shift
import Lox.Proofs.Scoping.Shift
import Lox.Proofs.Session.Reset
import Lox.Proofs.Parse.Calls
import Lox.Proofs.Parse.Progress
import Lox.Proofs.Parse.Recovery
import Lox.Proofs.Declared
import Lox.Proofs.Run.Creation
import Lox.Proofs.Run.Values
import Lox.Proofs.Session.Creations
import Lox.Proofs.Token.Lexeme
import Lox.Proofs.Token.Layout
import Lox.Proofs.Parse.Resumption
import Lox.Proofs.Parse.Semicolon
import Lox.Proofs.Run.Idle
import Lox.Proofs.Run.Trimmed
import Lox.Proofs.Scoping.Aligned
import Lox.Proofs.Run.ForLoop
import Lox.Proofs.Session.ForStatement
import Lox.Proofs.Token.Rescan
import Lox.Proofs.Run.Truncation
import Lox.Proofs.Session.Truncation
import Lox.Proofs.Run.Holdings
import Lox.Proofs.Run.Journal
import Lox.Proofs.Session.Classes
import Lox.Proofs.Session.Properties
import Lox.Proofs.Session.Construction
import Lox.Proofs.Number.Rounding
import Lox.Proofs.Number.Shortest
import Lox.Proofs.Number.Display
import Lox.Proofs.Text.Form
import Lox.Proofs.Text.Tree
import Lox.Proofs.Scoping.Forest
