import Shading.Graph.Link

/-!
# Replacing an output

Folding works on one output of one node. It replaces the output by a literal that is stored in every
consumer, moves the consumers to another output, or drops them. The node itself stays where it is.
-/

namespace Shading

namespace Node

/-- Whether an input is unlinked and holds floating-point zero. -/
def isZeroInput (input : Input) : Bool :=
  !input.isLinked && input.type.isFloating && input.literal.isZero

/-- Whether an input is unlinked and holds floating-point one. -/
def isOneInput (input : Input) : Bool :=
  !input.isLinked && input.type.isFloating && input.literal.isOne

end Node

namespace Graph

/-- The input of a given name. -/
def namedInput (g : Graph) (id : NodeId) (name : String) : Except Fault Input := do
  g.input (← g.inputRef id name)

def holdsZero (g : Graph) (id : NodeId) (name : String) : Except Fault Bool := do
  return Node.isZeroInput (← g.namedInput id name)

def holdsOne (g : Graph) (id : NodeId) (name : String) : Except Fault Bool := do
  return Node.isOneInput (← g.namedInput id name)

end Graph

namespace Edit

/-- Stores a literal in all consumers of an output and unlinks them. -/
def makeConstant (o : OutputRef) (literal : Literal) : Edit Unit := do
  let targets ← ask (·.consumersOf o)
  targets.forM fun target => store target literal
  disconnectOutput o

/-- Stores a literal, restricted to the unit interval if so asked. -/
def makeConstantClamped (o : OutputRef) (literal : Literal) (clamped : Bool) : Edit Unit :=
  makeConstant o (if clamped then literal.saturate else literal)

/-- Replaces a floating-point output by zero. -/
def makeZero (o : OutputRef) : Edit Unit := do
  let output ← ask (·.output o)
  if output.type.isFloating then makeConstant o (.zero output.type)

/-- Replaces a floating-point output by one. -/
def makeOne (o : OutputRef) : Edit Unit := do
  let output ← ask (·.output o)
  if output.type = .float then makeConstant o (.float 1)
  else if output.type.isFloat3 then makeConstant o (.float3 (Vec3.splat 1))

/-- Moves all consumers of an output to another one. -/
def redirect (o replacement : OutputRef) : Edit Unit := do
  let targets ← ask (·.consumersOf o)
  disconnectOutput o
  targets.forM fun target => discard <| connect replacement target

/-- Unlinks all consumers of an output. -/
def dropConsumers (o : OutputRef) : Edit Unit := do
  let _ ← ask (·.output o)
  disconnectOutput o

/-- Moves the consumers of an output to what is linked to an input, or unlinks them if nothing is.
-/
def redirectOrDrop (o : OutputRef) (name : String) : Edit Unit := do
  match ← ask fun g => do g.linkOf (← g.inputRef o.node name) with
  | some source => redirect o source
  | none => dropConsumers o

/-- Unlinks all inputs of a node but one. -/
def keepOnlyInput (kept : InputRef) : Edit Unit := do
  let n ← ask (·.node kept.node)
  (List.range n.inputs.length).forM fun slot =>
    if slot = kept.slot then pure () else disconnectIfLinked ⟨kept.node, slot⟩

/-- Lets an output pass on what an input of the same type receives, link or literal. A link cannot
be passed on if the result is to be clamped; then the other inputs are unlinked, and the node stays.
Tells whether the output was replaced. -/
def passThrough (o : OutputRef) (name : String) (clamped : Bool) : Edit Bool := do
  let target ← ask (·.inputRef o.node name)
  let input ← ask (·.input target)
  let output ← ask (·.output o)
  if input.type ≠ output.type then return false
  match input.link with
  | none =>
    if input.type.isFloating then
      makeConstantClamped o input.literal clamped
      return true
    else return false
  | some source =>
    if clamped then
      keepOnlyInput target
      return false
    else
      redirect o source
      return true

end Edit

end Shading
