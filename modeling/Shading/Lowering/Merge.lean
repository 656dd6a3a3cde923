import Shading.Graph.Link
import Shading.Traverse.Worklist

/-!
# Merging duplicates

Two nodes that compute the same are merged: the consumers of the later one are moved to the earlier
one. A node is looked at after the nodes that feed it, which are then merged already, so duplicates
are linked to the very same outputs. -/

namespace Shading

namespace Graph

/-- The first of some candidates that computes the same as a node. Candidates of other types are
looked at in vain (`twin?_eq_twin?_filter`), so they are not kept apart by the name of the type. -/
def twin? (g : Graph) (n : Node) (candidates : List NodeId) : Option NodeId :=
  candidates.find? fun id => (g.node? id).any (n.interchangeable ·)

end Graph

namespace Edit

/-- Moves the consumers of a node to its twin. -/
def mergeInto (id twin : NodeId) : Edit Unit := do
  let n ← ask (·.node id)
  (List.range n.outputs.length).forM fun slot => bypass id ⟨id, slot⟩ (some ⟨twin, slot⟩)

/-- Merges the nodes that a worklist hands out with the candidates seen so far, or else makes them
candidates. Nodes that feed nothing are passed over. Returns the number of nodes merged. -/
def mergeAll (w : Worklist) (candidates : List NodeId) (merged : Nat) : Edit Nat := do
  match h : w.next? with
  | none => pure merged
  | some (id, w') =>
    have : w'.size + 1 = w.size := Worklist.size_next? h
    let g ← get
    let n ← ask (·.node id)
    if n.isConsumed then
      match g.twin? n candidates with
      | some twin =>
        mergeInto id twin
        mergeAll (w'.scheduleConsumers g id) candidates (merged + 1)
      | none => mergeAll (w'.scheduleConsumers g id) (candidates ++ [id]) merged
    else mergeAll w' candidates merged
termination_by w.size
decreasing_by
  · rw [Worklist.size_scheduleConsumers]
    omega
  · rw [Worklist.size_scheduleConsumers]
    omega
  · omega

/-- Merges all duplicates. Returns the number of nodes merged. -/
def mergeDuplicates : Edit Nat := do
  mergeAll (Worklist.ofGraph (← get)) [] 0

end Edit

end Shading
