import Shading.Graph.Link

/-!
# Default inputs

An unlinked input with a default source is linked to that source. All of them share one geometry
node and one texture coordinate node, which are added when they are first needed. -/

namespace Shading

/-- The kinds of nodes that default sources are outputs of. -/
inductive SharedNode where
  | geometry | textureCoordinate
deriving DecidableEq

def SharedNode.kind : SharedNode → NodeKind
  | geometry => .geometry
  | textureCoordinate => .textureCoordinate

namespace DefaultSource

/-- The node that a source is an output of. -/
def owner : DefaultSource → SharedNode
  | textureGenerated | textureNormal | textureUv => .textureCoordinate
  | incoming | normal | position | tangent => .geometry

/-- The name of the output. -/
def outputName : DefaultSource → String
  | textureGenerated => "Generated"
  | textureNormal => "Normal"
  | textureUv => "UV"
  | incoming => "Incoming"
  | normal => "Normal"
  | position => "Position"
  | tangent => "Tangent"

end DefaultSource

/-- The shared nodes that have been added. -/
abbrev SharedNodes := List (SharedNode × NodeId)

namespace Edit

/-- The shared node of a kind, added if it is not there yet. -/
def sharedNode (shared : SharedNodes) (owner : SharedNode) : Edit (NodeId × SharedNodes) := do
  match shared.lookup owner with
  | some id => pure (id, shared)
  | none =>
    let id ← addKind owner.kind
    pure (id, (owner, id) :: shared)

/-- Links an input to its default source. -/
def linkDefault (target : InputRef) (source : DefaultSource) (shared : SharedNodes) :
    Edit SharedNodes := do
  let (id, shared) ← sharedNode shared source.owner
  discard <| connect (← ask (·.outputRef id source.outputName)) target
  pure shared

/-- Links the unlinked inputs of a node to their default sources. -/
def linkDefaults (shared : SharedNodes) (id : NodeId) : Edit SharedNodes := do
  let n ← ask (·.node id)
  n.inputs.zipIdx.foldlM (fun shared (input, slot) =>
    match input.link, input.source with
    | none, some source => linkDefault ⟨id, slot⟩ source shared
    | _, _ => pure shared) shared

/-- Links all unlinked inputs that have a default source. -/
def linkAllDefaults : Edit Unit := do
  discard <| (← get).ids.foldlM linkDefaults []

end Edit

end Shading
