import Shading.Graph.Basic

/-!
# Editing graphs

An edit is a change of a graph that may end in a fault. A fault leaves the graph as the edit had
made it up to that point. Edits of links and literals are refused on a finalized graph. -/

namespace Shading

abbrev Edit (α : Type) := EStateM Fault Graph α

/-- What became of an attempt to link two sockets. -/
inductive Connection where
  | linked
  /-- The sockets are linked through the node of this id, which was added for it. -/
  | converted (id : NodeId)
  /-- Nothing was linked, for the reason that was reported. -/
  | rejected (d : Diagnostic)

namespace Edit

/-- Asks something of the present graph. -/
def ask {α : Type} (question : Graph → Except Fault α) : Edit α := do
  match question (← get) with
  | .ok a => pure a
  | .error fault => throw fault

/-- Runs an edit whose result is the graph alone. -/
def exec {α : Type} (edit : Edit α) (g : Graph) : Except Fault Graph :=
  match edit.run g with
  | .ok _ g => .ok g
  | .error fault _ => .error fault

def requireMutable : Edit Unit := do
  if (← get).finalized then throw .finalized

/-! ### Nodes -/

/-- Adds a copy of a node, without its links. -/
def add (n : Node) : Edit NodeId := do
  requireMutable
  let id := (← get).idBound
  modify (·.push n)
  pure id

def addKind (kind : NodeKind) : Edit NodeId := add (Node.ofKind kind)

/-- Stores a literal in an input. -/
def store (target : InputRef) (literal : Literal) : Edit Unit := do
  requireMutable
  discard <| ask (·.input target)
  modify (·.modifyInput target (Input.store literal))

/-- Stores a literal in the input of a given name, also on a finalized graph. Tells whether there is
such an input. -/
def storeNamed (id : NodeId) (name : String) (literal : Literal) : Edit Bool := do
  let n ← ask (·.node id)
  modify (·.modifyNode id (·.store name literal))
  pure (n.inputSlot? name).isSome

def report (d : Diagnostic) : Edit Unit := modify (·.report d)

def markSimplified : Edit Unit := modify fun g => { g with simplified := true }

def markFinalized : Edit Unit := modify fun g => { g with finalized := true }

def markExpanded (id : NodeId) : Edit Unit := do
  discard <| ask (·.node id)
  modify (·.modifyNode id fun n => { n with expanded := true })

def setBump (id : NodeId) (sample : BumpSample) : Edit Unit := do
  discard <| ask (·.node id)
  modify (·.modifyNode id fun n => { n with bump := sample })

end Edit

end Shading
