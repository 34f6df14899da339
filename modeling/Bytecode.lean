import Bytecode.Embedding.Session
import Bytecode.Proofs.CallByName
import Bytecode.Proofs.CallContract
import Bytecode.Proofs.Chunk.Bijection
import Bytecode.Proofs.Discipline
import Bytecode.Proofs.ErrorLog
import Bytecode.Proofs.Interpreter
import Bytecode.Proofs.Isolation
import Bytecode.Proofs.OperandSafety
import Bytecode.Proofs.Verify.Exactness
import Bytecode.Proofs.Resources
import Bytecode.Proofs.HostCode
import Bytecode.Proofs.Requests
import Bytecode.Proofs.LoadGate
import Bytecode.Proofs.Files
import Bytecode.Proofs.History
import Bytecode.Proofs.ErrorBlindness
import Bytecode.Proofs.GlobalWrites
import Bytecode.Proofs.Reloading
import Bytecode.Proofs.Diagnosis
import Bytecode.Proofs.Verify.Rules
import Bytecode.Proofs.Verify.Rounds
import Bytecode.Proofs.Chunk.Cut
import Bytecode.Proofs.Chunk.Words
import Bytecode.Proofs.Termination
import Bytecode.Proofs.Evaluation
import Bytecode.Proofs.Integers
import Bytecode.Proofs.Refusals
import Bytecode.Proofs.Window
import Bytecode.Proofs.Comparisons
import Bytecode.Proofs.StackEffect
