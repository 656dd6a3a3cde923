import Shading.Graph.Subgraph

/-!
# Cycles and unreachable nodes

A depth-first search from the output, and then from each AOV output, cuts every link that leads back
to a node on the path of the search. The nodes that it does not come across are of no use and can be
removed.

The search takes nodes from a list of unvisited ones. Together with the path they have a number of
inputs that are still to be followed, which gets smaller with each step (`Path.work`). -/

namespace Shading

/-- A node on the path of the search, with the inputs that are still to be followed. -/
structure PathNode where
  node : NodeId
  pending : List Nat

/-- The path from the node that is being looked at back to the root. -/
abbrev Path := List PathNode

namespace Path

def contains (path : Path) (id : NodeId) : Bool := path.any (·.node == id)

/-- The steps that the path can take without visiting another node. -/
def work (path : Path) : Nat := (path.flatMap (·.pending)).length + path.length

/-- Nodes that are not on the path yet, with all of their inputs. -/
def waiting (inputs : NodeId → List Nat) (unvisited : List NodeId) : Path :=
  unvisited.map fun id => ⟨id, inputs id⟩

/-- Visiting a node moves its work onto the path. -/
theorem work_visit (inputs : NodeId → List Nat) {unvisited : List NodeId} {id : NodeId}
    (h : id ∈ unvisited) :
    work (waiting inputs (unvisited.erase id)) + work [⟨id, inputs id⟩] =
      work (waiting inputs unvisited) := by
  have hperm : (waiting inputs unvisited).Perm (waiting inputs (id :: unvisited.erase id)) :=
    (List.perm_cons_erase h).map _
  have hpending := (hperm.flatMap_right (·.pending)).length_eq
  have hnodes := hperm.length_eq
  simp only [work, waiting, List.map_cons, List.flatMap_cons, List.flatMap_nil, List.length_append,
    List.length_cons, List.length_nil] at hpending hnodes ⊢
  omega

end Path

/-- The inputs of a node that is visited. -/
def Graph.pendingInputs (g : Graph) (id : NodeId) : List Nat :=
  match g.node? id with
  | some n => List.range n.inputs.length
  | none => []

namespace Edit

/-- Cuts the link of an input that closes a cycle. -/
def cutLink (target : InputRef) : Edit Unit := do
  let input ← ask (·.input target)
  disconnectInput target
  report (.cycleBroken target.node input.name)

/-- Follows a path to its end and returns what is unvisited then. A node that is visited goes onto the
path with all of its inputs. -/
def searchCycles (inputs : NodeId → List Nat) (unvisited : List NodeId) (path : Path) :
    Edit (List NodeId) := do
  match path with
  | [] => pure unvisited
  | ⟨_, []⟩ :: rest => searchCycles inputs unvisited rest
  | ⟨id, slot :: pending⟩ :: rest =>
    match ← ask (·.linkOf ⟨id, slot⟩) with
    | none => searchCycles inputs unvisited (⟨id, pending⟩ :: rest)
    | some source =>
      if Path.contains (⟨id, pending⟩ :: rest) source.node then
        cutLink ⟨id, slot⟩
        searchCycles inputs unvisited (⟨id, pending⟩ :: rest)
      else if h : source.node ∈ unvisited then
        have := Path.work_visit inputs h
        searchCycles inputs (unvisited.erase source.node)
          (⟨source.node, inputs source.node⟩ :: ⟨id, pending⟩ :: rest)
      else searchCycles inputs unvisited (⟨id, pending⟩ :: rest)
termination_by (Path.waiting inputs unvisited).work + path.work
decreasing_by
  all_goals
    simp only [Path.work, List.flatMap_cons, List.length_append, List.length_cons, List.flatMap_nil,
      List.length_nil] at *
    omega

/-- Searches from a root unless it was visited already. -/
def searchRoot (inputs : NodeId → List Nat) (unvisited : List NodeId) (root : NodeId) :
    Edit (List NodeId) := do
  if root ∈ unvisited then searchCycles inputs (unvisited.erase root) [⟨root, inputs root⟩]
  else pure unvisited

/-- Cuts all cycles behind the outputs. Returns the nodes that were visited. -/
def breakCycles : Edit NodeSet := do
  let g ← get
  let aovs := (g.nodes.filter fun (_, n) => n.role = .aovOutput).map (·.1)
  let unvisited ← (Graph.outputId :: aovs).foldlM (searchRoot g.pendingInputs) g.ids
  pure (g.ids.filter (· ∉ unvisited))

/-- Removes all nodes that are not in a given set, except for the output node. Returns their number.
-/
def removeUnreachable (reachable : NodeSet) : Edit Nat := do
  let dead := (← get).ids.filter fun id => id ≠ Graph.outputId && id ∉ reachable
  removeNodes dead
  pure dead.length

end Edit

end Shading
