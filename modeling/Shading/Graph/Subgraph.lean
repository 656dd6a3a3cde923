import Shading.Graph.Link
import Shading.Traverse.Explore

/-!
# Subgraphs

The nodes that feed an input, copies of a set of nodes with the links among them, and the removal of
nodes. -/

namespace Shading

/-- A set of ids is listed in increasing order without repetition. -/
abbrev NodeSet := List NodeId

namespace NodeSet

def insert (id : NodeId) : NodeSet → NodeSet
  | [] => [id]
  | x :: xs => if id < x then id :: x :: xs else if id = x then x :: xs else x :: insert id xs

def ofList (ids : List NodeId) : NodeSet := ids.foldr insert []

end NodeSet

/-- The copies that were made of nodes, by the id of the node. -/
abbrev CopyMap := List (NodeId × NodeId)

namespace Graph

/-- The nodes from which a node can be reached along links, itself included. -/
def cone (g : Graph) (id : NodeId) : NodeSet :=
  let seen := explore g.feeders g.ids [id]
  g.ids.filter (· ∈ seen)

/-- The nodes from which an input can be reached along links. -/
def dependencies (g : Graph) (r : InputRef) : Except Fault NodeSet := do
  match ← g.linkOf r with
  | some source => return g.cone source.node
  | none => return []

end Graph

namespace Edit

/-! ### Copying -/

/-- Copies nodes without their links. -/
def copyNodes (ids : NodeSet) : Edit CopyMap :=
  ids.mapM fun id => do
    let n ← ask (·.node id)
    return (id, ← add n.copy)

/-- Links the copy of a node to the copies of the nodes that feed it. What is fed by a node without
a copy stays unlinked. -/
def copyLinks (copies : CopyMap) (id copy : NodeId) : Edit Unit := do
  let n ← ask (·.node id)
  n.inputs.zipIdx.forM fun (input, slot) =>
    match input.link with
    | none => pure ()
    | some source =>
      match copies.lookup source.node with
      | none => pure ()
      | some sourceCopy => discard <| connect ⟨sourceCopy, source.slot⟩ ⟨copy, slot⟩

/-- Copies a set of nodes and the links among them. -/
def copySubgraph (ids : NodeSet) : Edit CopyMap := do
  let copies ← copyNodes ids
  copies.forM fun (id, copy) => copyLinks copies id copy
  pure copies

/-! ### Removing -/

/-- Removes nodes with their links. The output node stays as it is. -/
def removeNodes (ids : NodeSet) : Edit Unit := do
  requireMutable
  ids.forM fun id => do
    if id ≠ Graph.outputId ∧ (← get).contains id then
      disconnectNodeInputs id
      disconnectNodeOutputs id
  modify (·.drop ids)

end Edit

end Shading
