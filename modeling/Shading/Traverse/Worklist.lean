import Shading.Graph.Basic

/-!
# Worklists

A worklist hands out nodes so that each comes after the nodes that feed it. It starts with the nodes
that nothing feeds; when a node is done, those of its consumers are added whose feeding nodes are
all done. Nodes that depend on a cycle are never handed out. Every node leaves the waiting list at
most once, so the number of nodes in the queue and in the waiting list bounds the work (`size`). -/

namespace Shading

/-- The nodes to hand out next, those that wait for others, and those that were handed out. -/
structure Worklist where
  queue : List NodeId
  waiting : List NodeId
  done : List NodeId

namespace Worklist

/-- The worklist at the start. -/
def ofGraph (g : Graph) : Worklist where
  queue := (g.nodes.filter fun (_, n) => !n.hasLinkedInput).map (·.1)
  waiting := (g.nodes.filter fun (_, n) => n.hasLinkedInput).map (·.1)
  done := []

/-- The number of nodes that may still be handed out. -/
def size (w : Worklist) : Nat := w.queue.length + w.waiting.length

/-- Takes the next node, which counts as done from now on. -/
def next? (w : Worklist) : Option (NodeId × Worklist) :=
  match w.queue with
  | [] => none
  | id :: rest => some (id, { w with queue := rest, done := id :: w.done })

/-- Whether all nodes that feed a node are done. -/
def isReady (w : Worklist) (g : Graph) (id : NodeId) : Bool := (g.feeders id).all (· ∈ w.done)

/-- Adds a node to the queue if it waits and is ready. -/
def schedule (g : Graph) (w : Worklist) (id : NodeId) : Worklist :=
  if id ∈ w.waiting ∧ w.isReady g id then
    { w with queue := w.queue ++ [id], waiting := w.waiting.erase id }
  else w

/-- Adds the consumers of a node that have become ready. -/
def scheduleConsumers (w : Worklist) (g : Graph) (id : NodeId) : Worklist :=
  ((g.consumers id).map (·.node)).foldl (schedule g) w

theorem size_next? {w w' : Worklist} {id : NodeId} (h : w.next? = some (id, w')) :
    w'.size + 1 = w.size := by
  unfold next? at h
  split at h
  · cases h
  · rename_i q
    cases h
    simp only [size, q, List.length_cons]
    omega

@[simp] theorem size_schedule (g : Graph) (w : Worklist) (id : NodeId) :
    (w.schedule g id).size = w.size := by
  unfold schedule
  split
  · rename_i h
    have hpos := List.length_pos_of_mem h.1
    simp only [size, List.length_append, List.length_erase_of_mem h.1, List.length_cons,
      List.length_nil]
    omega
  · rfl

@[simp] theorem size_scheduleConsumers (w : Worklist) (g : Graph) (id : NodeId) :
    (w.scheduleConsumers g id).size = w.size := by
  unfold scheduleConsumers
  induction (g.consumers id).map (·.node) generalizing w with
  | nil => rfl
  | cons c cs ih => rw [List.foldl_cons, ih, size_schedule]

/-- The nodes that a worklist hands out when the graph does not change meanwhile. -/
def drain (g : Graph) (w : Worklist) : List NodeId :=
  match h : w.next? with
  | none => []
  | some (id, w') =>
    have : w'.size + 1 = w.size := size_next? h
    id :: drain g (w'.scheduleConsumers g id)
termination_by w.size
decreasing_by
  rw [size_scheduleConsumers]
  omega

end Worklist

namespace Graph

/-- The nodes that neither lie on a cycle nor depend on one, each after the nodes that feed it. -/
def topologicalOrder (g : Graph) : List NodeId := (Worklist.ofGraph g).drain g

/-- Whether the links have no cycle. This stands for the cycle test of a graph library that is no
part of this project. Of that test only the answer is modelled, which is exact
(`WellFormed.isAcyclic_iff`). -/
def isAcyclic (g : Graph) : Bool := g.ids.all (· ∈ g.topologicalOrder)

end Graph

end Shading
