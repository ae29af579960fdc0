import StackFlow.Assembly
import StackFlow.Toolchain
import StackFlow.Session
import StackFlow.Proofs.IR.DepthFirst
import StackFlow.Proofs.IR.Linking
import StackFlow.Proofs.IR.Ssa
import StackFlow.Proofs.Walk.BackEntry
import StackFlow.Proofs.Walk.Depth
import StackFlow.Proofs.Walk.DeadCode
import StackFlow.Proofs.Walk.Exceptions
import StackFlow.Proofs.Walk.Lookups
import StackFlow.Proofs.Walk.Once
import StackFlow.Proofs.Walk.Simulation
import StackFlow.Proofs.Walk.WellFormed
import StackFlow.Proofs.Walk.Written
import StackFlow.Proofs.Assembly.Estimate
import StackFlow.Proofs.Assembly.Marks
import StackFlow.Proofs.Assembly.Specialised
import StackFlow.Proofs.Code.Partition
import StackFlow.Proofs.Host.Fixnum
import StackFlow.Proofs.Text.Listing
import StackFlow.Proofs.Walk.Underflow
import StackFlow.Proofs.Walk.FirstEntry
import StackFlow.Proofs.IR.Linked
