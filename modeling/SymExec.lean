import SymExec.Json.Writer
import SymExec.Main
import SymExec.Proofs.Disjoint
import SymExec.Proofs.Overflow
import SymExec.Proofs.Counting
import SymExec.Proofs.Canonical
import SymExec.Proofs.Provenance
import SymExec.Proofs.Extent
import SymExec.Proofs.PathErrors
import SymExec.Proofs.Concretize
import SymExec.Proofs.TypeNames
import SymExec.Proofs.LoadErrors
import SymExec.Proofs.Inputs
import SymExec.Proofs.Copying
import SymExec.Proofs.Indexing
import SymExec.Proofs.PointerArith
import SymExec.Proofs.Assignment
import SymExec.Proofs.ByteSwap
import SymExec.Proofs.Cutoff
import SymExec.Proofs.Refusal
import SymExec.Proofs.ConfigText
