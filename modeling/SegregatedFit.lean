import SegregatedFit.Host.Paged
import SegregatedFit.Proofs.Accounting
import SegregatedFit.Proofs.Damage
import SegregatedFit.Proofs.Emptying
import SegregatedFit.Proofs.FirstFit
import SegregatedFit.Proofs.Histories
import SegregatedFit.Proofs.Outgrowing
import SegregatedFit.Proofs.Packing
import SegregatedFit.Proofs.Refusing
import SegregatedFit.Proofs.Remnant
import SegregatedFit.Proofs.Rendering
import SegregatedFit.Proofs.Reporting
import SegregatedFit.Proofs.Restarting
import SegregatedFit.Proofs.Reusing
import SegregatedFit.Proofs.Skipping
import SegregatedFit.Proofs.Stacks
import SegregatedFit.Proofs.Strays
import SegregatedFit.Proofs.Undoing
import SegregatedFit.Proofs.Watermark
