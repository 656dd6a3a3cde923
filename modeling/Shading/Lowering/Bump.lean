import Shading.Graph.Subgraph

/-!
# Bump mapping

A bump compares the height at the shading point with the heights at two points beside it. The nodes
that compute the height are copied, and each copy is tagged with the sample it computes. -/

namespace Shading.Edit

/-- Tags nodes with the sample that they compute. -/
def tagSample (sample : BumpSample) (filterWidth : Binary32) (ids : List NodeId) : Edit Unit :=
  ids.forM fun id => do
    discard <| ask (·.node id)
    modify (·.modifyNode id fun n => { n with bump := sample, filterWidth := filterWidth })

/-- Tags the nodes of the three samples of a bump. -/
def tagSamples (filterWidth : Binary32) (center dx dy : List NodeId) : Edit Unit := do
  tagSample .center filterWidth center
  tagSample .dx filterWidth dx
  tagSample .dy filterWidth dy

/-- The copy of an output. -/
def copyOf (copies : CopyMap) (source : OutputRef) : Edit OutputRef :=
  match copies.lookup source.node with
  | some copy => pure ⟨copy, source.slot⟩
  | none => throw (.missingCopy source.node)

def copiesOf (copies : CopyMap) : List NodeId := copies.map (·.2)

/-- Splits the height of a bump into three samples. The nodes that compute it become the centre, and
copies of them the two points beside it. -/
def refineBump (id : NodeId) (n : Node) : Edit Unit := do
  let height ← ask (·.inputRef id "Height")
  if let some source ← ask (·.linkOf height) then
    let filterWidth := n.float "Filter Width"
    let center ← ask (·.dependencies height)
    let dx ← copySubgraph center
    let dy ← copySubgraph center
    tagSamples filterWidth center (copiesOf dx) (copiesOf dy)
    let sampleX ← ask (·.inputRef id "SampleX")
    let sampleY ← ask (·.inputRef id "SampleY")
    let sampleCenter ← ask (·.inputRef id "SampleCenter")
    discard <| connect (← copyOf dx source) sampleX
    discard <| connect (← copyOf dy source) sampleY
    discard <| connect source sampleCenter
    disconnectInput height

/-- Splits the heights of all bumps. -/
def refineBumps : Edit Unit := do
  (← get).ids.forM fun id => do
    let n ← ask (·.node id)
    if n.role = .bump then refineBump id n

/-- The nodes that make a bumped normal of three samples of a displacement: one that gives the geometric
normal, one for each sample that projects it onto that normal, and the bump itself. -/
structure DisplacementBump where
  geometry : NodeId
  dotCenter : NodeId
  dotDx : NodeId
  dotDy : NodeId
  bump : NodeId
  setNormal : NodeId

def addDisplacementBump (objectSpace : Bool) : Edit DisplacementBump := do
  let geometry ← addKind .geometry
  let dotCenter ← addKind (.vectorMath .dotProduct)
  let dotDx ← addKind (.vectorMath .dotProduct)
  let dotDy ← addKind (.vectorMath .dotProduct)
  let bump ← addKind (.bump false objectSpace)
  let setNormal ← addKind .setNormal
  return ⟨geometry, dotCenter, dotDx, dotDy, bump, setNormal⟩

/-- Projects one sample of the displacement onto the normal, and links it to the bump. -/
def linkSample (source : OutputRef) (bump : NodeId) (copies : CopyMap) (dot : NodeId)
    (sample : String) : Edit Unit := do
  let vector ← ask (·.inputRef dot "Vector1")
  discard <| connect (← copyOf copies source) vector
  discard <| connectNamed dot "Value" bump sample

/-- Links the copies of the displacement to the bump, and the bump to the output. -/
def linkDisplacementBump (nodes : DisplacementBump) (source : OutputRef) (center dx dy : CopyMap) :
    Edit Unit := do
  let normal ← ask (·.outputRef nodes.geometry "Normal")
  [nodes.dotCenter, nodes.dotDx, nodes.dotDy].forM fun dot => do
    discard <| connect normal (← ask (·.inputRef dot "Vector2"))
  discard <| connectNamed nodes.geometry "Normal" nodes.bump "Normal"
  linkSample source nodes.bump center nodes.dotCenter "SampleCenter"
  linkSample source nodes.bump dx nodes.dotDx "SampleX"
  linkSample source nodes.bump dy nodes.dotDy "SampleY"
  discard <| connectNamed nodes.bump "Normal" nodes.setNormal "Direction"
  disconnectIfLinked (← ask (·.inputRef Graph.outputId "Normal"))
  discard <| connectNamed nodes.setNormal "Normal" Graph.outputId "Normal"

/-- Derives a bumped normal from the displacement. Three copies of the nodes that compute it are
projected onto the geometric normal and feed a new bump, whose result becomes the normal of the
output. -/
def bumpFromDisplacement (objectSpace : Bool) : Edit Unit := do
  let displacement ← ask (·.inputRef Graph.outputId "Displacement")
  if let some source ← ask (·.linkOf displacement) then
    let ids ← ask (·.dependencies displacement)
    let center ← copySubgraph ids
    let dx ← copySubgraph ids
    let dy ← copySubgraph ids
    let nodes ← addDisplacementBump objectSpace
    discard <| storeNamed nodes.bump "Distance" (.float 1)
    let filterWidth := (← ask (·.node nodes.bump)).float "Filter Width"
    tagSamples filterWidth (copiesOf center) (copiesOf dx) (copiesOf dy)
    linkDisplacementBump nodes source center dx dy

end Shading.Edit
