import Shading.Socket

/-!
# Faults

The reasons why an operation on a graph can fail: it names something that is not there, it asks for
what is not possible, or the graph breaks a promise of its own. -/

namespace Shading

inductive Fault where
  | nodeNotFound (id : NodeId)
  | unknownInput (node : NodeId) (name : String)
  | unknownOutput (node : NodeId) (name : String)
  | slotOutOfRange (node : NodeId) (slot : Nat)
  | inputNotLinked (node : NodeId) (input : String)
  /-- An input names an output that does not list it among its consumers. -/
  | linkNotListed (target : InputRef) (source : OutputRef)
  /-- An output lists an input that does not name it. -/
  | consumerNotLinked (source : OutputRef) (target : InputRef)
  | cycleSurvived
  | missingCopy (node : NodeId)
  /-- The graph is finalized and no longer changes. -/
  | finalized
deriving DecidableEq

def Fault.message : Fault → String
  | nodeNotFound id => s!"node not found: NodeId({id})"
  | unknownInput node name => s!"node {node} has no input named '{name}'"
  | unknownOutput node name => s!"node {node} has no output named '{name}'"
  | slotOutOfRange node slot => s!"socket slot {slot} out of range on node {node}"
  | inputNotLinked node input => s!"input '{input}' of node {node} is not linked"
  | linkNotListed target source =>
    s!"graph inconsistency: input {target.text} links to {source.text} which does not list it"
  | consumerNotLinked source target =>
    s!"graph inconsistency: output {source.text} lists {target.text} which does not link back"
  | cycleSurvived => "invalid graph: cycle survived cleaning"
  | missingCopy node => s!"invalid graph: node {node} missing from cloned subgraph"
  | finalized => "cannot mutate a finalized shader graph"

end Shading
