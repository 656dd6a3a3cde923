import Shading.Graph.Basic

/-!
# Audit of links

Both ends of every link must name each other. The audit reports the first end that does not, taking
nodes in order, and for each node its inputs before its outputs. -/

namespace Shading.Graph

/-- The fault of an input, if the output that feeds it does not list it. -/
def auditInput (g : Graph) (target : InputRef) (input : Input) : Except Fault Unit :=
  match input.link with
  | none => .ok ()
  | some source =>
    if (g.output? source).any (·.consumers.contains target) then .ok ()
    else .error (.linkNotListed target source)

/-- The fault of an output, if one of its consumers is linked elsewhere. -/
def auditOutput (g : Graph) (source : OutputRef) (output : Output) : Except Fault Unit :=
  output.consumers.forM fun target =>
    if (g.input? target).any (·.link == some source) then .ok ()
    else .error (.consumerNotLinked source target)

/-- Checks that both ends of every link agree. -/
def audit (g : Graph) : Except Fault Unit :=
  g.nodes.forM fun (id, n) => do
    n.inputs.zipIdx.forM fun (input, slot) => g.auditInput ⟨id, slot⟩ input
    n.outputs.zipIdx.forM fun (output, slot) => g.auditOutput ⟨id, slot⟩ output

end Shading.Graph
