import Shading.Graph.Link
import Shading.Scene

/-!
# Descriptions of graphs

A description names the nodes of a graph, gives literals to their inputs, and lists links between
sockets that are written as the name of a node, a dot, and the name of a socket. The output node is
there without being described, under the name `output`.

`Description.build` makes the graph. Links that are refused do not stop it: they are reported on the
graph. -/

namespace Shading

/-- A literal as it is written. It takes the shape of the input in which it is stored. -/
inductive WrittenLiteral where
  | boolean (b : Bool)
  | number (x : Binary32)
  | triple (v : Vec3 Binary32)
  | text (s : String)

def WrittenLiteral.toLiteral : WrittenLiteral → Literal
  | boolean b => .boolean b
  | number x => .float x
  | triple v => .float3 v
  | text s => .string s

structure DescribedNode where
  name : String
  kind : NodeKind
  values : List (String × WrittenLiteral)

structure DescribedLink where
  source : String
  target : String

structure Description where
  nodes : List DescribedNode
  links : List DescribedLink
  output : List (String × WrittenLiteral)
  scene : Scene

/-- The reasons why no graph can be made of a description. -/
inductive DescriptionFault where
  | duplicateNode (name : String)
  | unknownNode (name : String)
  | unknownSocket (node socket : String)
  | badReference (text : String)
  | badAov (text : String)
  | malformed
  | graph (fault : Fault)
deriving DecidableEq

def DescriptionFault.message : DescriptionFault → String
  | duplicateNode name => s!"duplicate node name '{name}'"
  | unknownNode name => s!"unknown node '{name}'"
  | unknownSocket node socket => s!"node '{node}' has no input '{socket}'"
  | badReference text => s!"malformed socket reference '{text}', expected 'node.Socket'"
  | badAov text => s!"invalid AOV '{text}', expected NAME, NAME:color or NAME:value"
  | malformed => "invalid graph description: a JSON record of nodes and links is expected"
  | graph fault => fault.message

/-- Cuts a text at the first occurrence of a character. -/
def splitAtFirst (c : Char) (s : String) : Option (String × String) :=
  match s.toList.span (· != c) with
  | (before, _ :: after) => some (String.ofList before, String.ofList after)
  | (_, []) => none

namespace Description

/-- The name of the output node. -/
def outputName : String := "output"

/-- The ids of the named nodes. -/
abbrev Names := List (String × NodeId)

/-- A fault of the graph is a fault of its description. -/
def raise {α : Type} : Except Fault α → Except DescriptionFault α
  | .ok a => .ok a
  | .error fault => .error (.graph fault)

/-- Stores the literals of a node. -/
def storeValues (g : Graph) (id : NodeId) (name : String) (values : List (String × WrittenLiteral)) :
    Except DescriptionFault Graph :=
  values.foldlM (fun g (socket, value) => do
    let n ← raise (g.node id)
    if (n.inputSlot? socket).isNone then throw (.unknownSocket name socket)
    return g.modifyNode id (·.store socket value.toLiteral)) g

/-- Adds a described node. -/
def addNode (state : Graph × Names) (d : DescribedNode) : Except DescriptionFault (Graph × Names) := do
  let (g, names) := state
  if (names.lookup d.name).isSome then throw (.duplicateNode d.name)
  let id := g.idBound
  let g ← storeValues (g.push (Node.ofKind d.kind)) id d.name d.values
  return (g, (d.name, id) :: names)

/-- The node and the name of the socket that a reference stands for. -/
def resolve (names : Names) (reference : String) : Except DescriptionFault (NodeId × String) :=
  match splitAtFirst '.' reference with
  | none => .error (.badReference reference)
  | some (node, socket) =>
    match names.lookup node with
    | none => .error (.unknownNode node)
    | some id => .ok (id, socket)

/-- Adds a described link. -/
def addLink (names : Names) (g : Graph) (d : DescribedLink) : Except DescriptionFault Graph := do
  let (source, output) ← resolve names d.source
  let (target, input) ← resolve names d.target
  raise ((Edit.connectNamed source output target input).exec g)

/-- Adds all described nodes to the empty graph. -/
def addNodes (nodes : List DescribedNode) : Except DescriptionFault (Graph × Names) :=
  nodes.foldlM addNode (Graph.empty, [(outputName, Graph.outputId)])

/-- The graph that a description describes. -/
def build (d : Description) : Except DescriptionFault Graph := do
  let (g, names) ← addNodes d.nodes
  let g ← storeValues g Graph.outputId outputName d.output
  d.links.foldlM (addLink names) g

end Description

end Shading
