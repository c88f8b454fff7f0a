import Strata.Contract
import Strata.Disk.Listing
import Strata.Main
import Strata.Proofs.Archive.Extraction
import Strata.Proofs.Archive.Reachable
import Strata.Proofs.Host.Refusals
import Strata.Proofs.Host.Runs
import Strata.Proofs.Memory.Relocation
import Strata.Proofs.Memory.Streams
import Strata.Proofs.Overlay.Creation
import Strata.Proofs.Overlay.Eager
import Strata.Proofs.Overlay.Folding
import Strata.Proofs.Overlay.Moving
import Strata.Proofs.Overlay.Nesting
import Strata.Proofs.Overlay.Opening
import Strata.Proofs.Overlay.Precedence
import Strata.Proofs.Overlay.Refusals
import Strata.Snapshot
import Strata.Proofs.Indentation
import Strata.Proofs.Memory.Atomicity
import Strata.Proofs.Overlay.DeepRemoval
import Strata.Proofs.Memory.Planting
import Strata.Proofs.Overlay.Planting
import Strata.Proofs.Overlay.New
import Strata.Proofs.Shell.Runs
import Strata.Proofs.Shell.Touch
import Strata.Proofs.Overlay.Writing
import Strata.Proofs.Shell.Write
import Strata.Proofs.Overlay.History
import Strata.Proofs.Overlay.Looking
import Strata.Proofs.Overlay.OwnPath
import Strata.Proofs.Overlay.FoldedRemoval
import Strata.Proofs.Overlay.FirstOffer
import Strata.Proofs.Overlay.FoldedCreation
import Strata.Proofs.Contract
import Strata.Proofs.Archive.Corruption
import Strata.Proofs.Manifest.Building
import Strata.Proofs.Canonical
