import Multiway.Key.Sample
import Multiway.Proofs.Assembly.Faults
import Multiway.Proofs.Assembly.Listing
import Multiway.Proofs.Draft.Allocation
import Multiway.Proofs.Draft.Hints
import Multiway.Proofs.Lowering.Backward
import Multiway.Proofs.Lowering.Composition
import Multiway.Proofs.Lowering.Estimate
import Multiway.Proofs.Lowering.Fetch
import Multiway.Proofs.Lowering.Frame
import Multiway.Proofs.Passes.Convergence
import Multiway.Proofs.Pool.Timeline
import Multiway.Proofs.Search.Balance
import Multiway.Proofs.Search.Decision
import Multiway.Proofs.Search.Reordering
