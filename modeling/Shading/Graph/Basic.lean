import Shading.Graph.Diagnostic
import Shading.Graph.Fault
import Shading.Node

/-!
# Graphs

A graph keeps its nodes in a table indexed by their ids. A new node is put at the end, a removed one
leaves an empty place, and so ids are never used twice and the order of the table is the order in
which the nodes were added. Node 0 is the output of the graph. -/

namespace Shading

structure Graph where
  table : Array (Option Node)
  simplified : Bool
  finalized : Bool
  diagnostics : List Diagnostic

namespace Graph

/-- The id of the output node. -/
def outputId : NodeId := 0

/-- The graph with an output node only. -/
def empty : Graph := ⟨#[some (Node.ofKind .output)], false, false, []⟩

/-! ### Looking up -/

/-- The number of ids given out so far. -/
def idBound (g : Graph) : Nat := g.table.size

def node? (g : Graph) (id : NodeId) : Option Node := g.table[id]?.join

def contains (g : Graph) (id : NodeId) : Bool := (g.node? id).isSome

/-- The ids of the nodes, in the order in which they were added. -/
def ids (g : Graph) : List NodeId := (List.range g.idBound).filter g.contains

/-- The nodes with their ids, in the order in which they were added. -/
def nodes (g : Graph) : List (NodeId × Node) :=
  g.ids.filterMap fun id => (g.node? id).map fun n => (id, n)

def nodeCount (g : Graph) : Nat := g.ids.length

def linkCount (g : Graph) : Nat := (g.nodes.flatMap fun (_, n) => n.links).length

def input? (g : Graph) (r : InputRef) : Option Input := (g.node? r.node).bind fun n => n.inputs[r.slot]?

def output? (g : Graph) (r : OutputRef) : Option Output :=
  (g.node? r.node).bind fun n => n.outputs[r.slot]?

/-- Whether an input is linked; an input that does not exist is not. -/
def isLinked (g : Graph) (r : InputRef) : Bool := (g.input? r).any (·.isLinked)

/-- The nodes that feed a node. -/
def feeders (g : Graph) (id : NodeId) : List NodeId :=
  match g.node? id with
  | some n => n.links.map (·.node)
  | none => []

/-- The inputs fed by any output of a node, by output and then in the order of linking. -/
def consumers (g : Graph) (id : NodeId) : List InputRef :=
  match g.node? id with
  | some n => n.outputs.flatMap (·.consumers)
  | none => []

def node (g : Graph) (id : NodeId) : Except Fault Node :=
  match g.node? id with
  | some n => .ok n
  | none => .error (.nodeNotFound id)

def input (g : Graph) (r : InputRef) : Except Fault Input := do
  match (← g.node r.node).inputs[r.slot]? with
  | some input => .ok input
  | none => .error (.slotOutOfRange r.node r.slot)

def output (g : Graph) (r : OutputRef) : Except Fault Output := do
  match (← g.node r.node).outputs[r.slot]? with
  | some output => .ok output
  | none => .error (.slotOutOfRange r.node r.slot)

/-- The place of the first input of a given name. -/
def inputRef (g : Graph) (id : NodeId) (name : String) : Except Fault InputRef := do
  match (← g.node id).inputSlot? name with
  | some slot => .ok ⟨id, slot⟩
  | none => .error (.unknownInput id name)

/-- The place of the first output of a given name. -/
def outputRef (g : Graph) (id : NodeId) (name : String) : Except Fault OutputRef := do
  match (← g.node id).outputSlot? name with
  | some slot => .ok ⟨id, slot⟩
  | none => .error (.unknownOutput id name)

def linkOf (g : Graph) (r : InputRef) : Except Fault (Option OutputRef) := do
  return (← g.input r).link

def consumersOf (g : Graph) (r : OutputRef) : Except Fault (List InputRef) := do
  return (← g.output r).consumers

/-! ### Changing -/

def modifyNode (g : Graph) (id : NodeId) (f : Node → Node) : Graph :=
  { g with table := g.table.modify id (Option.map f) }

def modifyInput (g : Graph) (r : InputRef) (f : Input → Input) : Graph :=
  g.modifyNode r.node (·.modifyInput r.slot f)

def modifyOutput (g : Graph) (r : OutputRef) (f : Output → Output) : Graph :=
  g.modifyNode r.node (·.modifyOutput r.slot f)

/-- Notes that the graph is no longer known to be simplified. -/
def touch (g : Graph) : Graph := { g with simplified := false }

def report (g : Graph) (d : Diagnostic) : Graph := { g with diagnostics := g.diagnostics ++ [d] }

/-- Adds a node under the next id. The links it has elsewhere stay there. -/
def push (g : Graph) (n : Node) : Graph :=
  { g with table := g.table.push (some n.unlinked) }.touch

/-- Links an input to an output, at both ends. -/
def link (g : Graph) (source : OutputRef) (target : InputRef) : Graph :=
  ((g.modifyInput target fun input => { input with link := some source }).modifyOutput source
    fun output => { output with consumers := output.consumers ++ [target] }).touch

/-- Removes the link from an output to an input, at both ends. -/
def unlink (g : Graph) (source : OutputRef) (target : InputRef) : Graph :=
  ((g.modifyInput target Input.unlink).modifyOutput source fun output =>
    { output with consumers := output.consumers.filter (· != target) }).touch

/-- Removes all links from an output, at both ends. -/
def unlinkOutput (g : Graph) (source : OutputRef) (targets : List InputRef) : Graph :=
  (targets.foldl (fun g target => g.modifyInput target Input.unlink)
    (g.modifyOutput source Output.unlink)).touch

/-- Takes nodes out of the table. The output node stays. -/
def drop (g : Graph) (ids : List NodeId) : Graph :=
  { g with table := g.table.mapIdx fun id n => if id ≠ outputId ∧ id ∈ ids then none else n }

end Graph

end Shading
