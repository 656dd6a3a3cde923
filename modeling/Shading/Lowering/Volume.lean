import Shading.Graph.Link
import Shading.Traverse.Explore

/-!
# Volumes

The nodes behind the volume output are walked with a tag that says whether every node on the way is
linear. A node that is reached otherwise cannot be sampled stochastically. If no node on the way can
be part of a volume, the volume output is unlinked. -/

namespace Shading

namespace Graph

/-- A node, and whether it was reached through linear nodes only. -/
abbrev Reached := NodeId × Bool

/-- The nodes that feed a reached node. -/
def reachedFeeders (g : Graph) (r : Reached) : List Reached :=
  match g.node? r.1 with
  | some n => n.links.map fun source => (source.node, r.2 && n.isLinear)
  | none => []

/-- All nodes reached from a node. -/
def volumeWalk (g : Graph) (root : NodeId) : List Reached :=
  explore g.reachedFeeders (g.ids.flatMap fun id => [(id, true), (id, false)]) [(root, true)]

/-- Whether a node can be part of a volume. -/
def supportsVolume (g : Graph) (id : NodeId) : Bool := (g.node? id).any (·.kind.supportsVolume)

/-- Takes a node out of stochastic sampling. -/
def forbidStochastic (g : Graph) (id : NodeId) : Graph :=
  g.modifyNode id fun n => { n with stochastic := false }

end Graph

namespace Edit

/-- Marks the nodes behind the volume output, and unlinks the output if they make no volume. -/
def verifyVolume : Edit Unit := do
  let volume ← ask (·.inputRef Graph.outputId "Volume")
  match ← ask (·.linkOf volume) with
  | none => pure ()
  | some source =>
    let g ← get
    let reached := g.volumeWalk source.node
    modify fun g => (reached.filter (!·.2)).foldl (fun g r => g.forbidStochastic r.1) g
    if !reached.any fun r => g.supportsVolume r.1 then
      disconnectInput volume
      report .volumeDisconnected

end Edit

end Shading
