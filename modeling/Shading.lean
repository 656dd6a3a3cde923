import Shading.Graph.Audit
import Shading.Main
import Shading.Proofs.Outcome
import Shading.Proofs.WellFormed
import Shading.Proofs.Evolution
import Shading.Proofs.Linking
import Shading.Proofs.Subgraph
import Shading.Proofs.Primitive
import Shading.Proofs.Acyclic
import Shading.Proofs.CycleSearch
import Shading.Proofs.Folding
import Shading.Proofs.Schedule
import Shading.Proofs.Constants
import Shading.Proofs.Exact
import Shading.Proofs.Retention
import Shading.Proofs.Deduplication
import Shading.Proofs.Meaning
import Shading.Proofs.Paths
import Shading.Proofs.PathWeight
import Shading.Proofs.Preservation
import Shading.Proofs.Quantity
import Shading.Proofs.Identities
import Shading.Proofs.Replacement
import Shading.Proofs.ClampedMix
import Shading.Proofs.Rewiring
import Shading.Proofs.Cleaning
import Shading.Proofs.Preparation
import Shading.Proofs.Bump
import Shading.Proofs.Origins
import Shading.Proofs.ClosureWeight
import Shading.Proofs.Compilation
import Shading.Proofs.Redirection
import Shading.Proofs.Reachability
import Shading.Proofs.Merging
import Shading.Proofs.Proxy
import Shading.Proofs.Flattening
import Shading.Proofs.Digest
import Shading.Proofs.Content
import Shading.Proofs.Fingerprint
import Shading.Proofs.Displacement
import Shading.Proofs.Resimplification
import Shading.Proofs.Volume
import Shading.Proofs.Coverage
import Shading.Proofs.Update
import Shading.Proofs.Simplified
import Shading.Proofs.Clamping
import Shading.Proofs.Encoding
import Shading.Proofs.Patch
import Shading.Proofs.Description
import Shading.Proofs.LinkOrder
import Shading.Proofs.Bridges
import Shading.Proofs.Cutting
import Shading.Proofs.Offering
import Shading.Proofs.DisplacementBump
import Shading.Proofs.BumpRefinement
import Shading.Proofs.Staleness
import Shading.Proofs.WholeNumber
import Shading.Proofs.ProxyChain
import Shading.Proofs.DefaultFallback
import Shading.Proofs.Connecting
import Shading.Proofs.Linearity
import Shading.Proofs.Dependencies
import Shading.Proofs.Copying
import Shading.Proofs.Relinking
import Shading.Proofs.Atomicity
import Shading.Proofs.Removal
import Shading.Proofs.Diversion
import Shading.Proofs.FoldingRun
import Shading.Proofs.FoldedDisplacement
import Shading.Proofs.Addressing
import Shading.Proofs.DefaultWiring
import Shading.Proofs.FoldingOrder
import Shading.Proofs.FlatDisplacement
import Shading.Proofs.TopologicalOrder
import Shading.Proofs.Storing
