import SsaAmd64.CommandLine.Workspace
import SsaAmd64.Layout.Cache
import SsaAmd64.Main
import SsaAmd64.Proofs.Abi.Exclusive
import SsaAmd64.Proofs.Ir.Ownership
import SsaAmd64.Proofs.Lowering.Closed
import SsaAmd64.Proofs.Lowering.Comments
import SsaAmd64.Proofs.Lowering.Constants
import SsaAmd64.Proofs.Lowering.Handover
import SsaAmd64.Proofs.Lowering.Resolution
import SsaAmd64.Proofs.Lowering.Returns
import SsaAmd64.Proofs.Validation.Predecessors
import SsaAmd64.Proofs.Lowering.Traversal
import SsaAmd64.Proofs.Ir.Redirection
import SsaAmd64.Proofs.Ir.Removal
import SsaAmd64.Proofs.Lowering.LocalNames
import SsaAmd64.Proofs.Validation.Phis
import SsaAmd64.Proofs.Validation.Walks
import SsaAmd64.Proofs.Lowering.Displacement
import SsaAmd64.Proofs.Layout.Remembered
import SsaAmd64.Proofs.Ir.UniqueNames
import SsaAmd64.Proofs.Lowering.Separation
import SsaAmd64.Proofs.Lowering.Objects
import SsaAmd64.Proofs.Ty.Readable
import SsaAmd64.Proofs.Flow.ImmediateDominators
import SsaAmd64.Proofs.Ir.ProgramOrder
import SsaAmd64.Proofs.Lowering.Transfers
import SsaAmd64.Proofs.Lowering.Immediates
import SsaAmd64.Proofs.Flow.Progress
import SsaAmd64.Proofs.Lowering.Legality
import SsaAmd64.Proofs.Layout.Parts
