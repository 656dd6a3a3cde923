import Shading.Graph.Basic

/-!
# Listings

Two texts that show a graph: a plain one with a line for each node and each link, and a drawing for
Graphviz. Nodes come in the order in which they were added, links by their targets. -/

namespace Shading.Graph

/-- A link, by its two ends. -/
structure Link where
  source : OutputRef
  target : InputRef

/-- The links into a node. -/
def linksInto (id : NodeId) (n : Node) : List Link :=
  n.inputs.zipIdx.filterMap fun (input, slot) => input.link.map fun source => ⟨source, ⟨id, slot⟩⟩

/-- All links of a graph. -/
def allLinks (g : Graph) : List Link := g.nodes.flatMap fun (id, n) => linksInto id n

def nodeTitle (id : NodeId) (n : Node) : String := s!"{n.typeName} #{id}"

/-- One line for each node and then one for each link. -/
def listing (g : Graph) : Except Fault String := do
  let links ← g.allLinks.mapM fun link => do
    let output ← g.output link.source
    let input ← g.input link.target
    return s!"{link.source.node}.{output.name} -> {link.target.node}.{input.name}"
  return "\n".intercalate (g.nodes.map (fun (id, n) => nodeTitle id n) ++ links)

/-- A character inside a quoted label. A line break is written so that the line is set flush left.
-/
def labelChar (c : Char) : List Char :=
  match c with
  | '"' => ['\\', '"']
  | '\\' => ['\\', '\\']
  | '\n' => ['\\', 'l']
  | c => [c]

/-- The label of a node or of a link. -/
def label (s : String) : String := " [ label = \"" ++ String.ofList (s.toList.flatMap labelChar) ++ "\" ]\n"

/-- The position of a node among all nodes. -/
def position (g : Graph) (id : NodeId) : Nat := g.ids.idxOf id

/-- The graph as a drawing for Graphviz. The frame of the text, the numbers of the nodes and the form
of the labels stand for what the printer of a graph library writes. That printer is no part of this
project, so this is a model of its text as it was observed. -/
def drawing (g : Graph) : Except Fault String := do
  let nodes := g.nodes.map fun (id, n) => s!"    {g.position id}" ++ label (nodeTitle id n)
  let links ← (g.allLinks.filter fun link => g.contains link.source.node).mapM fun link => do
    let output ← g.output link.source
    let input ← g.input link.target
    return s!"    {g.position link.source.node} -> {g.position link.target.node}" ++
      label s!"{output.name} -> {input.name}"
  return "digraph \x7b\n" ++ String.join nodes ++ String.join links ++ "\x7d\n"

end Shading.Graph
