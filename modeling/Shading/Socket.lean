import Shading.Literal

/-!
# Sockets

A declaration is what the catalog fixes about a socket: name, type and the like. A socket is a
declaration together with its state: an input holds a literal and at most one link, an output the
list of the inputs that it feeds. Both ends of a link name each other.

Ids and positions are natural numbers without a bound. This is to be read under a capacity
assumption: over its life a graph is given fewer than `2 ^ 32` nodes, and a node has at most `2 ^ 16`
inputs and as many outputs, so that an id fits into 32 bits and a position into 16. -/

namespace Shading

/-- The number of a node within its graph, assumed to be below `2 ^ 32`. -/
abbrev NodeId := Nat

/-- The place of an input: its node, and its position among the inputs of the node, which is assumed
to be below `2 ^ 16`. -/
structure InputRef where
  node : NodeId
  slot : Nat
deriving DecidableEq

/-- The place of an output: its node, and its position among the outputs of the node, which is
assumed to be below `2 ^ 16`. -/
structure OutputRef where
  node : NodeId
  slot : Nat
deriving DecidableEq

def InputRef.text (r : InputRef) : String := s!"{r.node}.in[{r.slot}]"

def OutputRef.text (r : OutputRef) : String := s!"{r.node}.out[{r.slot}]"

/-- The geometric quantity that an input reads when nothing is linked to it. -/
inductive DefaultSource where
  | textureGenerated | textureNormal | textureUv | incoming | normal | position | tangent
deriving DecidableEq

def DefaultSource.name : DefaultSource → String
  | textureGenerated => "texture_generated"
  | textureNormal => "texture_normal"
  | textureUv => "texture_uv"
  | incoming => "incoming"
  | normal => "normal"
  | position => "position"
  | tangent => "tangent"

/-- What the catalog fixes about an input. An input that is not linkable only holds literals. -/
structure InputDecl where
  name : String
  type : SocketType
  initial : Literal
  linkable : Bool := true
  source : Option DefaultSource := none

structure OutputDecl where
  name : String
  type : SocketType
deriving DecidableEq

structure Input extends InputDecl where
  literal : Literal
  link : Option OutputRef

structure Output extends OutputDecl where
  consumers : List InputRef

/-- An unlinked input with its initial literal. -/
def InputDecl.fresh (d : InputDecl) : Input := { d with literal := d.initial, link := none }

/-- An output that feeds nothing. -/
def OutputDecl.fresh (d : OutputDecl) : Output := { d with consumers := [] }

namespace Input

def isLinked (input : Input) : Bool := input.link.isSome

/-- Stores a literal in the shape of the input's type. -/
def store (literal : Literal) (input : Input) : Input :=
  { input with literal := literal.convert input.type false }

def unlink (input : Input) : Input := { input with link := none }

end Input

namespace Output

def isConsumed (output : Output) : Bool := !output.consumers.isEmpty

def unlink (output : Output) : Output := { output with consumers := [] }

end Output

end Shading
