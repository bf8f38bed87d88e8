import MicroC.Analysis
import MicroC.Analysis.Error
import MicroC.Analysis.Scope
import MicroC.Analysis.Signature
import MicroC.Analysis.Typing
import MicroC.Assembly.Convention
import MicroC.Assembly.Flow
import MicroC.Assembly.Module
import MicroC.Assembly.Opcode
import MicroC.Ast.Basic
import MicroC.Ast.Drawing
import MicroC.Ast.Operator
import MicroC.CommandLine.Command
import MicroC.CommandLine.Disk
import MicroC.CommandLine.Memory
import MicroC.CommandLine.Options
import MicroC.CommandLine.Path
import MicroC.Compilation
import MicroC.Decimal.Binary64
import MicroC.Decimal.Integer
import MicroC.Emission.Basic
import MicroC.Emission.Expr
import MicroC.Emission.Frame
import MicroC.Emission.Program
import MicroC.Machine.Code
import MicroC.Machine.Cpu
import MicroC.Machine.Error
import MicroC.Machine.Host
import MicroC.Machine.Register
import MicroC.Machine.Run
import MicroC.Main
import MicroC.NodeId
import MicroC.Parser.Expr
import MicroC.Parser.Program
import MicroC.Parser.State
import MicroC.Parser.Stmt
import MicroC.Peephole
import MicroC.Peephole.Reduction
import MicroC.Proofs.Analysis.Arrangement
import MicroC.Proofs.Analysis.Blame
import MicroC.Proofs.Analysis.Calls
import MicroC.Proofs.Analysis.Renumbering
import MicroC.Proofs.Analysis.Rules
import MicroC.Proofs.Analysis.Scoping
import MicroC.Proofs.Analysis.Typed
import MicroC.Proofs.Analysis.Unplaced
import MicroC.Proofs.Ast.Measure
import MicroC.Proofs.Ast.Unplaced
import MicroC.Proofs.Compilation.Activations
import MicroC.Proofs.Compilation.Arrangement
import MicroC.Proofs.Compilation.Correct
import MicroC.Proofs.Compilation.Diagnostics
import MicroC.Proofs.Compilation.Discipline
import MicroC.Proofs.Compilation.Encodable
import MicroC.Proofs.Compilation.Isolation
import MicroC.Proofs.Compilation.Linking
import MicroC.Proofs.Compilation.Lowering
import MicroC.Proofs.Compilation.Modules
import MicroC.Proofs.Compilation.Passing
import MicroC.Proofs.Compilation.Places
import MicroC.Proofs.Compilation.Routines
import MicroC.Proofs.Compilation.Runs
import MicroC.Proofs.Compilation.Size
import MicroC.Proofs.Compilation.Supported
import MicroC.Proofs.Emission.Answers
import MicroC.Proofs.Emission.Arrangement
import MicroC.Proofs.Emission.Balance
import MicroC.Proofs.Emission.Blame
import MicroC.Proofs.Emission.Bookkeeping
import MicroC.Proofs.Emission.Code
import MicroC.Proofs.Emission.Completions
import MicroC.Proofs.Emission.Heights
import MicroC.Proofs.Emission.Labels
import MicroC.Proofs.Emission.Ledger
import MicroC.Proofs.Emission.Names
import MicroC.Proofs.Emission.Order
import MicroC.Proofs.Emission.Passing
import MicroC.Proofs.Emission.Program
import MicroC.Proofs.Emission.Records
import MicroC.Proofs.Emission.Renumbering
import MicroC.Proofs.Emission.Tidy
import MicroC.Proofs.Emission.Unplaced
import MicroC.Proofs.Emission.Values
import MicroC.Proofs.Emission.Visits
import MicroC.Proofs.Emission.Writing
import MicroC.Proofs.Machine.Access
import MicroC.Proofs.Machine.Address
import MicroC.Proofs.Machine.Data
import MicroC.Proofs.Machine.Division
import MicroC.Proofs.Machine.Effects
import MicroC.Proofs.Machine.Frame
import MicroC.Proofs.Machine.Hosts
import MicroC.Proofs.Machine.Returns
import MicroC.Proofs.Machine.Stack
import MicroC.Proofs.Machine.Straight
import MicroC.Proofs.Machine.Summaries
import MicroC.Proofs.Machine.Trace
import MicroC.Proofs.Parser.Anchors
import MicroC.Proofs.Parser.Arrangement
import MicroC.Proofs.Parser.Attempts
import MicroC.Proofs.Parser.Cursor
import MicroC.Proofs.Parser.Earliest
import MicroC.Proofs.Parser.ExprComplete
import MicroC.Proofs.Parser.ExprPrompt
import MicroC.Proofs.Parser.ExprTrace
import MicroC.Proofs.Parser.Grammar
import MicroC.Proofs.Parser.Language
import MicroC.Proofs.Parser.NearestElse
import MicroC.Proofs.Parser.NodeOrder
import MicroC.Proofs.Parser.Numbering
import MicroC.Proofs.Parser.Outcome
import MicroC.Proofs.Parser.ProgramTrace
import MicroC.Proofs.Parser.Prompt
import MicroC.Proofs.Parser.Renumbering
import MicroC.Proofs.Parser.Sound
import MicroC.Proofs.Parser.StmtComplete
import MicroC.Proofs.Parser.StmtPrompt
import MicroC.Proofs.Parser.StmtTrace
import MicroC.Proofs.Parser.Stopping
import MicroC.Proofs.Parser.Supply
import MicroC.Proofs.Parser.Tokens
import MicroC.Proofs.Parser.Unplaced
import MicroC.Proofs.Parser.Unrolled
import MicroC.Proofs.Peephole.Accounts
import MicroC.Proofs.Peephole.Agreement
import MicroC.Proofs.Peephole.Blocks
import MicroC.Proofs.Peephole.Changes
import MicroC.Proofs.Peephole.Constants
import MicroC.Proofs.Peephole.Encodable
import MicroC.Proofs.Peephole.FixedPoint
import MicroC.Proofs.Peephole.Flow
import MicroC.Proofs.Peephole.Joining
import MicroC.Proofs.Peephole.Locality
import MicroC.Proofs.Peephole.Optimiser
import MicroC.Proofs.Peephole.Renumbering
import MicroC.Proofs.Peephole.Rewrite
import MicroC.Proofs.Peephole.Rounds
import MicroC.Proofs.Peephole.Simulation
import MicroC.Proofs.Routine.Activation
import MicroC.Proofs.Routine.Adequate
import MicroC.Proofs.Routine.Decoding
import MicroC.Proofs.Routine.Execute
import MicroC.Proofs.Routine.Inversion
import MicroC.Proofs.Routine.Layout
import MicroC.Proofs.Routine.Level
import MicroC.Proofs.Routine.Link
import MicroC.Proofs.Routine.Lockstep
import MicroC.Proofs.Routine.Meets
import MicroC.Proofs.Routine.Mirror
import MicroC.Proofs.Routine.Op
import MicroC.Proofs.Routine.Operand
import MicroC.Proofs.Routine.Renaming
import MicroC.Proofs.Routine.Run
import MicroC.Proofs.Routine.Safe
import MicroC.Proofs.Routine.Shape
import MicroC.Proofs.Routine.Spelling
import MicroC.Proofs.Routine.Steady
import MicroC.Proofs.Routine.Step
import MicroC.Proofs.Routine.Stretch
import MicroC.Proofs.Semantics.Bounds
import MicroC.Proofs.Semantics.Evaluation
import MicroC.Proofs.Token.Ends
import MicroC.Proofs.Token.Lexeme
import MicroC.Proofs.Token.Lines
import MicroC.Proofs.Token.Recovery
import MicroC.Proofs.Token.Relexing
import MicroC.Proofs.Token.Spelling
import MicroC.Proofs.Token.Tiling
import MicroC.Source.Diagnostic
import MicroC.Source.Span
import MicroC.Table
import MicroC.Token
import MicroC.Token.Lexer
import MicroC.Token.Piece
import MicroC.Ty
