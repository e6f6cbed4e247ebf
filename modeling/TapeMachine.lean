import TapeMachine.Highlight
import TapeMachine.Main
import TapeMachine.Proofs.Syntax.Acceptance
import TapeMachine.Proofs.Syntax.Pairing
import TapeMachine.Proofs.Execution.Refinement
import TapeMachine.Proofs.Execution.Safety
import TapeMachine.Proofs.Execution.Padding
import TapeMachine.Proofs.Trace.Lines
import TapeMachine.Proofs.Execution.Stream
import TapeMachine.Proofs.Syntax.Composition
import TapeMachine.Proofs.Execution.Sequence
import TapeMachine.Proofs.Syntax.Comments
import TapeMachine.Proofs.Report.Execution
import TapeMachine.Proofs.Report.Comments
import TapeMachine.Proofs.Report.Caret
import TapeMachine.Proofs.Report.Answer
import TapeMachine.Proofs.Trace.Overflow
import TapeMachine.Proofs.Execution.Slices
import TapeMachine.Proofs.Settings.Layers
import TapeMachine.Proofs.Settings.Section
import TapeMachine.Proofs.Execution.Multiply
import TapeMachine.Proofs.Execution.Accounting
import TapeMachine.Proofs.Execution.Resumption
import TapeMachine.Proofs.Execution.Transcript
import TapeMachine.Proofs.Execution.Unchecked
import TapeMachine.Proofs.Report.Recovery
import TapeMachine.Proofs.Report.StandardInput
import TapeMachine.Proofs.Execution.Echo
import TapeMachine.Proofs.Report.Submission
import TapeMachine.Proofs.Report.Margins
import TapeMachine.Proofs.Report.Window
import TapeMachine.Proofs.Settings.MemorySize
import TapeMachine.Proofs.Settings.Layout
import TapeMachine.Proofs.Text.Segments
import TapeMachine.Proofs.Execution.StraightProgram
import TapeMachine.Proofs.Syntax.Scan
