import Shading.Digest.Blake3
import Shading.Graph.Subgraph

/-!
# Fingerprints

Two shaders with the same displacement can share displaced geometry. The fingerprint of a graph is a
hash of all that its displacement depends on: the nodes that feed it in the order of their ids,
their contents, and how they are linked. A graph without displacement has an empty fingerprint. -/

namespace Shading

namespace Node

/-- The hash of a node without its links. -/
def contentHash (n : Node) : List UInt8 := Blake3.hash n.contentBytes

/-- The bytecode of a script enters a hash once more on its own. -/
def bytecodeBytes (n : Node) : List UInt8 :=
  match n.kind with
  | .osl script => utf8 script.bytecodeHash
  | _ => []

end Node

namespace Graph

/-- The bytes under which the link of an input enters a hash: the id of the feeding node, zero if
there is none, then the names of the input and of the feeding output. -/
def linkBytes (g : Graph) (input : Input) : List UInt8 :=
  match input.link with
  | none => littleEndian 4 0 ++ utf8 input.name
  | some source =>
    littleEndian 4 source.node ++ utf8 input.name ++ utf8 ((g.output? source).map (·.name) |>.getD "")

/-- The bytes under which a node enters the fingerprint. -/
def nodeBytes (g : Graph) (id : NodeId) : List UInt8 :=
  match g.node? id with
  | none => []
  | some n => n.contentHash ++ n.bytecodeBytes ++ n.inputs.flatMap g.linkBytes

/-- All bytes that the displacement depends on. -/
def displacementBytes (g : Graph) (ids : NodeSet) : List UInt8 := ids.flatMap g.nodeBytes

/-- The fingerprint in hexadecimal. -/
def fingerprint (g : Graph) : Except Fault String := do
  let displacement ← g.inputRef outputId "Displacement"
  match ← g.linkOf displacement with
  | none => return ""
  | some _ => return Blake3.hex (Blake3.hash (g.displacementBytes (← g.dependencies displacement)))

end Graph

end Shading
