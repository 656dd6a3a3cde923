import Shading.Catalog.Encoding
import Shading.Socket

/-!
# Diagnostics

Problems that a graph records and carries on with: a link that was refused, or one that had to be
cut. -/

namespace Shading

inductive Diagnostic where
  | inputAlreadyLinked (node : NodeId) (input : String)
  | closureConversion (source : NodeId) (output : String) (target : NodeId) (input : String)
      (targetType : SocketType)
  | notLinkable (node : NodeId) (input : String)
  | cycleBroken (node : NodeId) (input : String)
  | volumeDisconnected
deriving DecidableEq

namespace Diagnostic

def message : Diagnostic → String
  | inputAlreadyLinked node input => s!"input '{input}' of node {node} is already connected"
  | closureConversion source output target input targetType =>
    s!"cannot connect closure output '{output}' of node {source} to {targetType.title} " ++
      s!"input '{input}' of node {target}"
  | notLinkable node input => s!"input '{input}' of node {node} is not linkable"
  | cycleBroken node input =>
    s!"cycle detected: removed link into input '{input}' of node {node}"
  | volumeDisconnected => "volume output has no volume-capable node upstream; disconnected"

/-- The name and the details of a diagnostic, as the members of a record. -/
def members : Diagnostic → List (String × Json)
  | inputAlreadyLinked node input =>
    [("kind", .str "input_already_linked"), ("node", .nat node), ("input", .str input)]
  | closureConversion source output target input targetType =>
    [("kind", .str "closure_conversion"), ("from", .nat source), ("output", .str output),
      ("to", .nat target), ("input", .str input), ("to_type", .str targetType.name)]
  | notLinkable node input =>
    [("kind", .str "not_linkable"), ("node", .nat node), ("input", .str input)]
  | cycleBroken node input =>
    [("kind", .str "cycle_broken"), ("node", .nat node), ("input", .str input)]
  | volumeDisconnected => [("kind", .str "volume_disconnected")]

def toJson (d : Diagnostic) : Json := .obj d.members

open Json

/-- Reads the number of a node. -/
def nodeId? (v : Json) : Option NodeId :=
  match v with
  | .num n =>
    match n.value? with
    | some (.integer (.ofNat id)) => if id < 1 <<< 32 then some id else none
    | _ => none
  | _ => none

/-- Reads the details that most diagnostics have. -/
def place? (make : NodeId → String → Diagnostic) (v : Json) : Option Diagnostic := do
  match ← v.record? ["node", "input"] with
  | [node, input] => pure (make (← required nodeId? node) (← required str? input))
  | _ => none

def ofJson? (v : Json) : Option Diagnostic := do
  let (tag, details) ← v.tagged? "kind"
  match tag with
  | "input_already_linked" => place? inputAlreadyLinked details
  | "not_linkable" => place? notLinkable details
  | "cycle_broken" => place? cycleBroken details
  | "closure_conversion" =>
    match ← details.record? ["from", "output", "to", "input", "to_type"] with
    | [source, output, target, input, type] =>
      pure (closureConversion (← required nodeId? source) (← required str? output)
        (← required nodeId? target) (← required str? input)
        (← required (setting SocketType.ofName?) type))
    | _ => none
  | "volume_disconnected" => if details.isEmptyRecord then pure volumeDisconnected else none
  | _ => none

end Diagnostic

end Shading
