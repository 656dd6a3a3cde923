import Shading.Graph.Link
import Shading.Traverse.Explore

/-!
# Closure weights

At render time there are no mixes and sums of closures: each closure at the leaves of such a tree
carries the weight with which it enters the result. A mix splits the weight that reaches it by its
factor, a sum passes it to both of its branches.

The tree is followed along the combining nodes that are not on the path yet. A path that returns to
itself is a fault; there is none in a graph without cycles. -/

namespace Shading

namespace Edit

/-- Links an input to a source, or stores a literal in it if there is none. -/
def feed (source? : Option OutputRef) (literal : Literal) (target : InputRef) : Edit Unit :=
  match source? with
  | some source => discard <| connect source target
  | none => store target literal

/-- Puts a sum in place of what an input takes in, or of the literal it holds. -/
def addWeight (target : InputRef) (link : Option OutputRef) (present : Binary32)
    (weight : Option OutputRef) : Edit Unit := do
  let sum ← addKind (.math .add false)
  feed link (.float present) (← ask (·.inputRef sum "Value1"))
  feed weight (.float 1) (← ask (·.inputRef sum "Value2"))
  disconnectIfLinked target
  discard <| connect (← ask (·.outputRef sum "Value")) target

/-- Adds to the weight of a closure what has come down the tree; no weight stands for one. -/
def addLeafWeight (volume : Bool) (id : NodeId) (weight : Option OutputRef) : Edit Unit := do
  let n ← ask (·.node id)
  match n.weightSlot? volume with
  | none => pure ()
  | some slot =>
    let target : InputRef := ⟨id, slot⟩
    let input ← ask (·.input target)
    let present := input.literal.float?.getD 0
    if input.isLinked || present != 0 then addWeight target input.link present weight
    else feed weight (.float (present + 1)) target

/-- Adds a node that splits a weight by the factor of a mix. Returns the two parts. -/
def splitWeight (id : NodeId) (facSlot : Nat) (weight : Option OutputRef) :
    Edit (OutputRef × OutputRef) := do
  let split ← addKind .mixClosureWeight
  let fac ← ask (·.input ⟨id, facSlot⟩)
  feed fac.link fac.literal (← ask (·.inputRef split "Fac"))
  connectTo weight (← ask (·.inputRef split "Weight"))
  return (← ask (·.outputRef split "Weight1"), ← ask (·.outputRef split "Weight2"))

/-- Spreads a weight over the closures below a node. `combines` are the nodes that may still be
entered as mixes or sums. -/
def spreadWeight (volume : Bool) (combines : List NodeId) (id : NodeId) (weight : Option OutputRef) :
    Edit Unit := do
  let n ← ask (·.node id)
  if n.role = .combineClosure then
    if h : id ∈ combines then
      have := length_erase_lt h
      let branch (link : Option OutputRef) (weight : Option OutputRef) : Edit Unit :=
        link.forM fun source => spreadWeight volume (combines.erase id) source.node weight
      let closure₁ ← ask fun g => do g.linkOf (← g.inputRef id "Closure1")
      let closure₂ ← ask fun g => do g.linkOf (← g.inputRef id "Closure2")
      match n.inputSlot? "Fac" with
      | none =>
        branch closure₁ weight
        branch closure₂ weight
      | some facSlot =>
        let (weight₁, weight₂) ← splitWeight id facSlot weight
        branch closure₁ (some weight₁)
        branch closure₂ (some weight₂)
    else throw .cycleSurvived
  else addLeafWeight volume id weight
termination_by combines.length

/-- Replaces the mixes and sums below a node by weights on the closures. -/
def flattenClosures (volume : Bool) (root : NodeId) (weight : Option OutputRef) : Edit Unit := do
  spreadWeight volume (← get).ids root weight

end Edit

/-- The number of closure slots that a graph needs at render time. The sum is not bounded here; it is
assumed to be below `2 ^ 32`, as a renderer counts slots in 32 bits. -/
def Graph.closureSlots (g : Graph) : Nat :=
  g.nodes.foldl (fun total (_, n) =>
    total + (n.kind.closureFamily?.map ClosureFamily.slots).getD 0) 0

end Shading
