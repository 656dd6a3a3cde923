import Shading.Fold.Rule
import Shading.Traverse.Worklist

/-!
# Constant propagation

All nodes that do not depend on a cycle are folded, each after the nodes that feed it, so that a
literal travels as far as it can. A displacement that folds to a literal is fed back through a
colour node, since the output has to stay linked to count as displaced. -/

namespace Shading.Edit

/-- Folds one output of a node if it feeds anything. -/
def foldIfConsumed (o : OutputRef) : Edit Unit := do
  if !(← ask (·.consumersOf o)).isEmpty then foldOutput o

/-- Folds all outputs of a node. -/
def foldNode (id : NodeId) : Edit Unit := do
  let n ← ask (·.node id)
  (List.range n.outputs.length).forM fun slot => foldIfConsumed ⟨id, slot⟩

/-- Folds the nodes that a worklist hands out. The consumers of a node are scheduled before it is
folded, while they are still linked to it. -/
def foldAll (w : Worklist) : Edit Unit := do
  match h : w.next? with
  | none => pure ()
  | some (id, w') =>
    have : w'.size + 1 = w.size := Worklist.size_next? h
    let g ← get
    foldNode id
    foldAll (w'.scheduleConsumers g id)
termination_by w.size
decreasing_by
  rw [Worklist.size_scheduleConsumers]
  omega

/-- Feeds the literal of the displacement back through a colour node. -/
def restoreDisplacement : Edit Unit := do
  let output ← ask (·.node Graph.outputId)
  let color ← addKind .color
  discard <| storeNamed color "Value" (.float3 (output.float3 "Displacement"))
  discard <| connectNamed color "Color" Graph.outputId "Displacement"

def displacementLinked : Edit Bool := do
  return (← ask (·.node Graph.outputId)).isLinked "Displacement"

/-- Folds all constants of a graph. -/
def propagateConstants : Edit Unit := do
  let displaced ← displacementLinked
  foldAll (Worklist.ofGraph (← get))
  if displaced && !(← displacementLinked) then restoreDisplacement

end Shading.Edit
