import LoxMachine.Main
import LoxMachine.Proofs.Machine.Action
import LoxMachine.Proofs.Code.Instruction
import LoxMachine.Proofs.Syntax.Grammar
import LoxMachine.Proofs.Compile.Bodies
import LoxMachine.Proofs.Compile.Accept
import LoxMachine.Proofs.Compile.Inversion
import LoxMachine.Proofs.Code.Layout
import LoxMachine.Proofs.Code.Emission
import LoxMachine.Proofs.Compile.Steps
import LoxMachine.Proofs.Compile.Emit
import LoxMachine.Proofs.Compile.Names
import LoxMachine.Proofs.Compile.Expressions
import LoxMachine.Proofs.Compile.Scopes
import LoxMachine.Proofs.Compile.Statements
import LoxMachine.Proofs.Compile.Functions
import LoxMachine.Proofs.Compile.Classes
import LoxMachine.Proofs.Compile.Scanned
import LoxMachine.Proofs.Compile.Script
import LoxMachine.Proofs.Typing.Shape
import LoxMachine.Proofs.Typing.Loads
import LoxMachine.Proofs.Typing.Runs
import LoxMachine.Proofs.Machine.Cells
import LoxMachine.Proofs.Typing.World
import LoxMachine.Proofs.Machine.Store
import LoxMachine.Proofs.Typing.Store
import LoxMachine.Proofs.Typing.Running
import LoxMachine.Proofs.Typing.Calls
import LoxMachine.Proofs.Typing.Steps
import LoxMachine.Proofs.Typing.Safety
import LoxMachine.Proofs.Code.Blocks
import LoxMachine.Proofs.Code.WellFormed
import LoxMachine.Proofs.Code.Heights
import LoxMachine.Proofs.Syntax.Scope
import LoxMachine.Proofs.Verdict.Scopes
import LoxMachine.Proofs.Verdict.Expressions
import LoxMachine.Proofs.Verdict.Variables
import LoxMachine.Proofs.Verdict.Statements
import LoxMachine.Proofs.Verdict.Script
import LoxMachine.Proofs.Machine.Success
import LoxMachine.Proofs.Machine.Effect
import LoxMachine.Proofs.Typing.Sharing
import LoxMachine.Proofs.Typing.Inheritance
import LoxMachine.Proofs.Machine.Intact
import LoxMachine.Proofs.Code.Listing
import LoxMachine.Proofs.Compile.Unlined
import LoxMachine.Proofs.Machine.Quiet
import LoxMachine.Proofs.Typing.Receivers
import LoxMachine.Proofs.Compile.Nesting
import LoxMachine.Proofs.Guarded.Script
import LoxMachine.Proofs.Guarded.Recovery
import LoxMachine.Proofs.Compile.Lined
import LoxMachine.Proofs.Typing.Traces
import LoxMachine.Proofs.Machine.Persistence
import LoxMachine.Proofs.Machine.Shortcuts
import LoxMachine.Proofs.Syntax.Reader
import LoxMachine.Proofs.Syntax.Unambiguous
import LoxMachine.Proofs.Code.Reference
import LoxMachine.Proofs.Compile.Generated
import LoxMachine.Proofs.Twin.Loops
import LoxMachine.Proofs.Syntax.Concatenation
import LoxMachine.Proofs.Twin.Sequence
import LoxMachine.Proofs.Code.Editing
import LoxMachine.Proofs.Compile.Events
import LoxMachine.Proofs.Compile.Logged
import LoxMachine.Proofs.Compile.Reports
import LoxMachine.Proofs.Code.Resolution
import LoxMachine.Proofs.Code.Captures
import LoxMachine.Proofs.Meaning.Evaluator
import LoxMachine.Proofs.Meaning.Places
import LoxMachine.Proofs.Meaning.Execution
import LoxMachine.Proofs.Meaning.Scripts
import LoxMachine.Proofs.Limits.Accounts
import LoxMachine.Proofs.Limits.Basic
import LoxMachine.Proofs.Limits.Expressions
import LoxMachine.Proofs.Limits.Variables
import LoxMachine.Proofs.Limits.Statements
import LoxMachine.Proofs.Limits.Functions
import LoxMachine.Proofs.Limits.Declarations
import LoxMachine.Proofs.Limits.Script
import LoxMachine.Proofs.Reference.Machine
import LoxMachine.Proofs.Reference.Reflection
import LoxMachine.Proofs.Reference.Rules
import LoxMachine.Proofs.Reference.Calls
import LoxMachine.Proofs.Reference.Steps
import LoxMachine.Proofs.Reference.Lockstep
import LoxMachine.Proofs.Scanning.Gaps
import LoxMachine.Proofs.Scanning.Lines
import LoxMachine.Proofs.Scanning.Vocabulary
import LoxMachine.Proofs.Scanning.Longest
import LoxMachine.Proofs.Scanning.Respacing
