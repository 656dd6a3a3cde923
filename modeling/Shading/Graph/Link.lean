import Shading.Graph.Edit

/-!
# Linking

An input takes one link, an output feeds any number of inputs. Sockets whose types do not fit are
linked through a conversion, and a value is linked to a closure through an emission; what cannot be
linked is reported and left alone. -/

namespace Shading.Edit

def reject (d : Diagnostic) : Edit Connection := do
  report d
  pure (.rejected d)

/-! ### Attempts to link

Nodes that are put between two sockets are linked by attempts of the same sort, nested in the first
one. What becomes of a nested attempt is not asked. -/

/-- Puts a new conversion between two sockets. -/
def connectConverted (attempt : OutputRef → InputRef → Edit Connection) (source : OutputRef)
    (sourceType : SocketType) (target : InputRef) (targetType : SocketType) : Edit NodeId := do
  let id ← addKind (.convert sourceType targetType true)
  discard <| attempt source ⟨id, 0⟩
  discard <| attempt ⟨id, 0⟩ target
  pure id

/-- Puts a new emission between a value and a closure. The value becomes its strength if it is a
number, and its colour otherwise. -/
def connectEmitted (attempt : OutputRef → InputRef → Edit Connection) (source : OutputRef)
    (sourceType : SocketType) (target : InputRef) : Edit NodeId := do
  let id ← addKind (.emission true)
  discard <| storeNamed id "Color" (.float3 (Vec3.splat 1))
  discard <| storeNamed id "Strength" (.float 1)
  let feed ← ask (·.inputRef id (if sourceType = .float then "Strength" else "Color"))
  discard <| attempt source feed
  let emission ← ask (·.outputRef id "Emission")
  discard <| attempt emission target
  pure id

/-- Links an output to an input, where `attempt` stands for the nested attempts. -/
def connectStep (attempt : OutputRef → InputRef → Edit Connection) (source : OutputRef)
    (target : InputRef) : Edit Connection := do
  requireMutable
  let output ← ask (·.output source)
  let input ← ask (·.input target)
  if input.isLinked then reject (.inputAlreadyLinked target.node input.name)
  else if !input.linkable then reject (.notLinkable target.node input.name)
  else if output.type.linksTo input.type then
    modify (·.link source target)
    pure .linked
  else if output.type = .closure then
    reject (.closureConversion source.node output.name target.node input.name input.type)
  else if input.type = .closure then
    return .converted (← connectEmitted attempt source output.type target)
  else return .converted (← connectConverted attempt source output.type target input.type)

/-- Links an output to an input, if no more than `depth` attempts are nested in each other. -/
def connectWithin : Nat → OutputRef → InputRef → Edit Connection
  | 0, _, target => throw (.nodeNotFound target.node)
  | depth + 1, source, target => connectStep (connectWithin depth) source target

/-- Links an output to an input. A closure takes a value from an emission, the colour of the emission
takes it from a conversion, and a conversion takes it directly. So three attempts are nested at most,
and this is the same as linking without a bound (`connect_eq`). -/
def connect (source : OutputRef) (target : InputRef) : Edit Connection :=
  connectWithin 3 source target

/-- Links two sockets given by name. -/
def connectNamed (source : NodeId) (output : String) (target : NodeId) (input : String) :
    Edit Connection := do
  let source ← ask (·.outputRef source output)
  let target ← ask (·.inputRef target input)
  connect source target

/-! ### Unlinking -/

def disconnectInput (target : InputRef) : Edit Unit := do
  requireMutable
  let input ← ask (·.input target)
  match input.link with
  | none => throw (.inputNotLinked target.node input.name)
  | some source => modify (·.unlink source target)

/-- Removes the link of an input if it has one. -/
def disconnectIfLinked (target : InputRef) : Edit Unit := do
  if (← ask (·.input target)).isLinked then disconnectInput target

def disconnectOutput (source : OutputRef) : Edit Unit := do
  requireMutable
  let targets ← ask (·.consumersOf source)
  modify (·.unlinkOutput source targets)

/-- Removes the links of all inputs of a node. -/
def disconnectNodeInputs (id : NodeId) : Edit Unit := do
  requireMutable
  let n ← ask (·.node id)
  (List.range n.inputs.length).forM fun slot => disconnectIfLinked ⟨id, slot⟩

/-- Removes the links of all outputs of a node. -/
def disconnectNodeOutputs (id : NodeId) : Edit Unit := do
  let n ← ask (·.node id)
  (List.range n.outputs.length).forM fun slot => disconnectOutput ⟨id, slot⟩

/-! ### Moving links -/

/-- Moves the link of an input to another input, and copies its literal there. -/
def relinkInput (source target : InputRef) : Edit Unit := do
  requireMutable
  let input ← ask (·.input source)
  if let some feed := input.link then
    disconnectInput source
    discard <| connect feed target
  store target input.literal

/-- Links an input to an output, if there is one to link it to. -/
def connectTo (source? : Option OutputRef) (target : InputRef) : Edit Unit :=
  match source? with
  | some source => discard <| connect source target
  | none => pure ()

/-- Moves the consumers of an output to another output, or unlinks them. -/
def relinkOutput (source : OutputRef) (replacement : Option OutputRef) : Edit Unit := do
  requireMutable
  let targets ← ask (·.consumersOf source)
  targets.forM fun target => do
    disconnectInput target
    connectTo replacement target

/-- Takes a node out of the flow of data: its inputs are unlinked, and the consumers of one of its
outputs are moved to another output, or unlinked. -/
def bypass (id : NodeId) (source : OutputRef) (replacement : Option OutputRef) : Edit Unit := do
  requireMutable
  let targets ← ask (·.consumersOf source)
  disconnectNodeInputs id
  targets.forM fun target => do
    disconnectIfLinked target
    connectTo replacement target
  modify (·.touch)

end Shading.Edit
