import ByteMachine.Assembly.Encode
import ByteMachine.Assembly.Source
import ByteMachine.Assembly.Token
import ByteMachine.Clock.Calendar
import ByteMachine.Clock.Timestamp
import ByteMachine.Command.Assembler
import ByteMachine.Command.Host
import ByteMachine.Command.Runner
import ByteMachine.Command.World
import ByteMachine.Engine.Budget
import ByteMachine.Engine.Run
import ByteMachine.Engine.Settings
import ByteMachine.Fault
import ByteMachine.Files.Path
import ByteMachine.Files.Tree
import ByteMachine.Instruction.Basic
import ByteMachine.Instruction.Disassembly
import ByteMachine.Log
import ByteMachine.Machine.Arithmetic
import ByteMachine.Machine.Console
import ByteMachine.Machine.Dump
import ByteMachine.Machine.Execute
import ByteMachine.Machine.State
import ByteMachine.Main
import ByteMachine.Object.Image
import ByteMachine.Object.Link
import ByteMachine.Opcode
import ByteMachine.Operand
import ByteMachine.Operation
import ByteMachine.Proofs.Assembly.Denotation
import ByteMachine.Proofs.Assembly.Diagnostic
import ByteMachine.Proofs.Assembly.Form
import ByteMachine.Proofs.Assembly.Immediate
import ByteMachine.Proofs.Assembly.Jump
import ByteMachine.Proofs.Assembly.LabelName
import ByteMachine.Proofs.Assembly.Lexeme
import ByteMachine.Proofs.Assembly.LineEnds
import ByteMachine.Proofs.Assembly.Linewise
import ByteMachine.Proofs.Assembly.Location
import ByteMachine.Proofs.Assembly.Preservation
import ByteMachine.Proofs.Assembly.Readback
import ByteMachine.Proofs.Assembly.Reassembly
import ByteMachine.Proofs.Assembly.Scan
import ByteMachine.Proofs.Assembly.Statement
import ByteMachine.Proofs.Assembly.Strictness
import ByteMachine.Proofs.Assembly.Words
import ByteMachine.Proofs.Clock.Calendar
import ByteMachine.Proofs.Clock.Timestamp
import ByteMachine.Proofs.Command.Assembled
import ByteMachine.Proofs.Command.Configuration
import ByteMachine.Proofs.Command.FailureAddress
import ByteMachine.Proofs.Command.World
import ByteMachine.Proofs.Command.Written
import ByteMachine.Proofs.Engine.Boundary
import ByteMachine.Proofs.Engine.Comparison
import ByteMachine.Proofs.Engine.ControlFlow
import ByteMachine.Proofs.Engine.Echo
import ByteMachine.Proofs.Engine.Failure
import ByteMachine.Proofs.Engine.Fetch
import ByteMachine.Proofs.Engine.Image
import ByteMachine.Proofs.Engine.Independence
import ByteMachine.Proofs.Engine.Limit
import ByteMachine.Proofs.Engine.Loop
import ByteMachine.Proofs.Engine.Repetition
import ByteMachine.Proofs.Engine.Settings
import ByteMachine.Proofs.Engine.Step
import ByteMachine.Proofs.Engine.Trace
import ByteMachine.Proofs.Files.Path
import ByteMachine.Proofs.Files.Tree
import ByteMachine.Proofs.Instruction.Code
import ByteMachine.Proofs.Instruction.Listing
import ByteMachine.Proofs.Instruction.Name
import ByteMachine.Proofs.Instruction.Split
import ByteMachine.Proofs.Machine.Arithmetic
import ByteMachine.Proofs.Machine.Dump
import ByteMachine.Proofs.Machine.Effect
import ByteMachine.Proofs.Machine.Failure
import ByteMachine.Proofs.Machine.Frame
import ByteMachine.Proofs.Machine.Stack
import ByteMachine.Proofs.Object.Labels
import ByteMachine.Proofs.Object.Linking
import ByteMachine.Proofs.Object.Passes
import ByteMachine.Proofs.Success
import ByteMachine.Proofs.Text.Lines
import ByteMachine.Proofs.Text.Numeral
import ByteMachine.Shape
import ByteMachine.Symbol
import ByteMachine.Text.Align
import ByteMachine.Text.Blank
import ByteMachine.Text.Decimal
import ByteMachine.Text.Lines
