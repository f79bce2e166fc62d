import ScriptEngine.Ast.Exchange
import ScriptEngine.Command
import ScriptEngine.Compiler
import ScriptEngine.Main
import ScriptEngine.Program.Encode
import ScriptEngine.Proofs.Allocation
import ScriptEngine.Proofs.Code.Grammar
import ScriptEngine.Proofs.Expression.Frames
import ScriptEngine.Proofs.Machine.Arguments
import ScriptEngine.Proofs.Machine.Limits
import ScriptEngine.Proofs.Machine.Strict
import ScriptEngine.Proofs.Positions
import ScriptEngine.Proofs.Program.Levels
import ScriptEngine.Proofs.Program.Merged
import ScriptEngine.Proofs.Semantics.ControlFlow
import ScriptEngine.Proofs.Storage.Distinct
import ScriptEngine.Proofs.Machine.Ceilings
import ScriptEngine.Proofs.Value.Bisimilarity
import ScriptEngine.Proofs.Machine.Cancellation
import ScriptEngine.Proofs.Machine.Traces
import ScriptEngine.Proofs.Program.Remerged
import ScriptEngine.Proofs.Compiler.Imports
import ScriptEngine.Proofs.Value.Sharing
import ScriptEngine.Proofs.Value.Isolation
import ScriptEngine.Proofs.Builtins.Splice
import ScriptEngine.Proofs.Format.Bare
import ScriptEngine.Proofs.Builtins.Conversions
import ScriptEngine.Proofs.Format.Integers
import ScriptEngine.Proofs.Value.Slices
