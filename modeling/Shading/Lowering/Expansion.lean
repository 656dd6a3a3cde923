import Shading.Graph.Link

/-!
# Expansion

Features of a node that stand for further nodes are written out. The result of a clamped scalar
operation is led through a clamp node. -/

namespace Shading.Edit

/-- Leads the result of a clamped operation through a new clamp node, if anything uses it. -/
def insertClamp (id : NodeId) : Edit Unit := do
  let result ← ask (·.outputRef id "Value")
  if !(← ask (·.consumersOf result)).isEmpty then
    let clamp ← addKind (.clamp .minMax)
    discard <| storeNamed clamp "Min" (.float 0)
    discard <| storeNamed clamp "Max" (.float 1)
    relinkOutput result (some (← ask (·.outputRef clamp "Result")))
    discard <| connect result (← ask (·.inputRef clamp "Value"))

/-- Writes out the features of a node. -/
def expand (id : NodeId) : Edit Unit := do
  if (← ask (·.node id)).kind.isClampedMath then insertClamp id

/-- Expands a node unless that was done before. -/
def expandOnce (id : NodeId) : Edit Unit := do
  if !(← ask (·.node id)).expanded then
    markExpanded id
    expand id

/-- Expands all nodes, and then the nodes that this has added. There is no third round, since no node
is left to be expanded (`ends_expandNodes_expanded`). -/
def expandNodes : Edit Unit := do
  let before ← get
  before.ids.forM expandOnce
  let after ← get
  (after.ids.filter fun id => before.idBound ≤ id).forM expandOnce

end Shading.Edit
