import StackMachine.Main
import StackMachine.Proofs.Agreement
import StackMachine.Proofs.Faults
import StackMachine.Proofs.Format
import StackMachine.Proofs.Isolation
import StackMachine.Proofs.Jumps
import StackMachine.Proofs.LabelOrder
import StackMachine.Proofs.Lexicon
import StackMachine.Proofs.Paths
import StackMachine.Proofs.Range
import StackMachine.Proofs.Relocation
import StackMachine.Proofs.Residue
import StackMachine.Proofs.Sequencing
import StackMachine.Proofs.StoredForms
import StackMachine.Proofs.Tracing
import StackMachine.Proofs.Writes
import StackMachine.Session
import StackMachine.Proofs.Blocks
import StackMachine.Proofs.Forward
import StackMachine.Proofs.Expressions
import StackMachine.Proofs.LastWrites
import StackMachine.Proofs.Loops
import StackMachine.Proofs.Concatenation
import StackMachine.Proofs.Layout
import StackMachine.Proofs.Scopes
import StackMachine.Proofs.NumberText
import StackMachine.Proofs.Dumps
import StackMachine.Proofs.FirstReads
import StackMachine.Proofs.Flags
