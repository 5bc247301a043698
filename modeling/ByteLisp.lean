import ByteLisp.Code
import ByteLisp.CommandLine
import ByteLisp.Comparison
import ByteLisp.CompileError
import ByteLisp.Decimal.Numeral
import ByteLisp.Decimal.Shortest
import ByteLisp.Emit
import ByteLisp.Emit.Draft
import ByteLisp.Engine
import ByteLisp.Expr
import ByteLisp.Expr.Arena
import ByteLisp.Expr.Parser
import ByteLisp.Form
import ByteLisp.Globals
import ByteLisp.Head
import ByteLisp.Heap
import ByteLisp.Instr
import ByteLisp.Listing
import ByteLisp.Machine
import ByteLisp.Machine.Run
import ByteLisp.Main
import ByteLisp.Native
import ByteLisp.Proofs.Code.Depth
import ByteLisp.Proofs.Code.Layout
import ByteLisp.Proofs.Code.Shape
import ByteLisp.Proofs.Code.WellFormed
import ByteLisp.Proofs.Ends
import ByteLisp.Proofs.Engine.Safety
import ByteLisp.Proofs.Generation.Access
import ByteLisp.Proofs.Generation.Coded
import ByteLisp.Proofs.Generation.Emitted
import ByteLisp.Proofs.Generation.Growth
import ByteLisp.Proofs.Generation.Traced
import ByteLisp.Proofs.Generation.Tracked
import ByteLisp.Proofs.Generation.Typing
import ByteLisp.Proofs.Generation.View
import ByteLisp.Proofs.Machine.Ends
import ByteLisp.Proofs.Machine.Running
import ByteLisp.Proofs.Machine.Safety
import ByteLisp.Proofs.Machine.Sound
import ByteLisp.Proofs.Machine.Store
import ByteLisp.Proofs.Scope.Capture
import ByteLisp.Proofs.Scope.Collect
import ByteLisp.Proofs.Scope.Later
import ByteLisp.Proofs.Scope.Walk
import ByteLisp.Proofs.Scope.Within
import ByteLisp.Report
import ByteLisp.Report.Style
import ByteLisp.Scope
import ByteLisp.Scope.Resolve
import ByteLisp.Scope.Survey
import ByteLisp.Span
import ByteLisp.Stack
import ByteLisp.Text.Blank
import ByteLisp.Text.Bytes
import ByteLisp.Text.Field
import ByteLisp.Token
import ByteLisp.Token.Lexer
import ByteLisp.Value
import ByteLisp.Proofs.Machine.Calls
import ByteLisp.Proofs.Engine.Calls
import ByteLisp.Proofs.Scope.Declared
import ByteLisp.Proofs.Engine.Atomic
import ByteLisp.Proofs.Syntax.Lexemes
import ByteLisp.Proofs.Syntax.Grammar
import ByteLisp.Proofs.Syntax.Recognition
import ByteLisp.Proofs.Syntax.Spelling
import ByteLisp.Proofs.Syntax.Printing
import ByteLisp.Proofs.Machine.Boundaries
import ByteLisp.Proofs.Machine.InRange
import ByteLisp.Proofs.Engine.Sessions
import ByteLisp.Proofs.Engine.Closures
import ByteLisp.Proofs.Machine.Limits
import ByteLisp.Proofs.Generation.Loopless
import ByteLisp.Proofs.Engine.Termination
import ByteLisp.Proofs.Generation.Renamed
import ByteLisp.Proofs.Engine.Recompiled
import ByteLisp.Proofs.Meaning.Programs
import ByteLisp.Proofs.Code.Listing
import ByteLisp.Proofs.Engine.Logging
import ByteLisp.Proofs.Engine.Reused
import ByteLisp.Proofs.Scope.Events
import ByteLisp.Proofs.Scope.Exact
import ByteLisp.Proofs.Generation.Agree
import ByteLisp.Proofs.Generation.Written
import ByteLisp.Proofs.Code.Decoding
import ByteLisp.Proofs.Syntax.Encoded
import ByteLisp.Proofs.Syntax.Partition
import ByteLisp.Proofs.Generation.Idle
import ByteLisp.Proofs.Generation.Demands
import ByteLisp.Proofs.Generation.Pools
import ByteLisp.Proofs.Code.Preorder
import ByteLisp.Proofs.Generation.Listed
import ByteLisp.Proofs.Joined.Composition
import ByteLisp.Proofs.Engine.Joined
import ByteLisp.Proofs.Syntax.Locations
import ByteLisp.Proofs.Engine.Reports
import ByteLisp.Proofs.Syntax.Rejections
import ByteLisp.Proofs.Generation.Fitted
import ByteLisp.Proofs.Generation.Named
import ByteLisp.Expr.Allocation
import ByteLisp.Proofs.Syntax.Allocation
import ByteLisp.Proofs.Syntax.Postorder
import ByteLisp.Proofs.Generation.Bracketing
