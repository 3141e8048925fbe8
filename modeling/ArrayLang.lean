import ArrayLang.Pipeline.Execution
import ArrayLang.Proofs.Reachable
import ArrayLang.Ty.Join
import ArrayLang.Proofs.Adverb
import ArrayLang.Proofs.CopyElimination.Separate
import ArrayLang.Proofs.Interpreter.Quiet
import ArrayLang.Proofs.Ty.Text
import ArrayLang.Proofs.Typing.Signature
import ArrayLang.Proofs.CopyElimination.DroppedWrite
import ArrayLang.Proofs.Dataflow.Alias
import ArrayLang.Proofs.Dataflow.AliasSound
import ArrayLang.Proofs.Adverb.Fold
import ArrayLang.Proofs.Interpreter.Frame
import ArrayLang.Proofs.Array.Reachable
import ArrayLang.Proofs.CopyElimination.Interface
import ArrayLang.Proofs.SymbolicShape.Evaluable
import ArrayLang.Proofs.Pipeline.Arguments
import ArrayLang.Proofs.Session.AppendOnly
import ArrayLang.Proofs.CopyElimination.FixedPoint
import ArrayLang.Proofs.Typing.Termination
import ArrayLang.Proofs.Interpreter.Callee
import ArrayLang.Proofs.Interpreter.LoopSetup
import ArrayLang.Proofs.Adverb.Accumulator
import ArrayLang.Proofs.Typing.Accumulator
import ArrayLang.Proofs.Interpreter.ArrayLiteral
import ArrayLang.Proofs.Array.SlicePositions
import ArrayLang.Proofs.Array.Selection
import ArrayLang.Proofs.Array.Copy
import ArrayLang.Proofs.Adverb.Arguments
import ArrayLang.Proofs.Array.Broadcast
import ArrayLang.Proofs.Array.RowMajor
import ArrayLang.Proofs.Interpreter.Ownership
import ArrayLang.Proofs.Interpreter.OperatorTypes
import ArrayLang.Proofs.Interpreter.IntegerArithmetic
import ArrayLang.Proofs.Adverb.Prefixes
import ArrayLang.Proofs.Typing.JoinOrder
import ArrayLang.Proofs.Interpreter.IndexTypes
import ArrayLang.Proofs.Interpreter.Coercion
import ArrayLang.Proofs.Typing.FixedPoint
import ArrayLang.Proofs.Binding.Slots
import ArrayLang.Proofs.Typing.InProgress
import ArrayLang.Proofs.Dataflow.Connected
import ArrayLang.Proofs.Dataflow.Unused
import ArrayLang.Proofs.Syntax.Children
import ArrayLang.Proofs.SymbolicShape.Folding
import ArrayLang.Proofs.Interpreter.ActiveCalls
import ArrayLang.Proofs.SymbolicShape.Termination
import ArrayLang.Proofs.Dataflow.ProgramOrder
import ArrayLang.Proofs.Typing.Hygiene
import ArrayLang.Proofs.Dataflow.Between
import ArrayLang.Proofs.Interpreter.Along
import ArrayLang.Proofs.CopyElimination.MovedWrite
import ArrayLang.Proofs.CopyElimination.Retarget
import ArrayLang.Proofs.Interpreter.ImageStatement
