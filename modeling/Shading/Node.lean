import Shading.Catalog.Encoding
import Shading.Catalog.Layout

/-!
# Nodes

A node is of a kind and owns its sockets. Besides, it carries the state that compilation leaves on
it: which sample of a bump it computes, whether it may be sampled stochastically, and whether it was
expanded. -/

namespace Shading

/-- The sample of a finite difference for which a node is evaluated. -/
inductive BumpSample where
  | unshifted | center | dx | dy
deriving DecidableEq

namespace BumpSample

def title : BumpSample → String
  | unshifted => "None"
  | center => "Center"
  | dx => "Dx"
  | dy => "Dy"

def all : List BumpSample := [unshifted, center, dx, dy]

def ofTitle? (s : String) : Option BumpSample := all.find? (·.title == s)

def code : BumpSample → UInt8
  | unshifted => 0
  | center => 1
  | dx => 2
  | dy => 3

end BumpSample

structure Node where
  kind : NodeKind
  inputs : List Input
  outputs : List Output
  bump : BumpSample
  filterWidth : Binary32
  stochastic : Bool
  expanded : Bool

namespace Node

/-- An unlinked node with the sockets of its kind. -/
def ofKind (kind : NodeKind) : Node where
  kind := kind
  inputs := kind.inputDecls.map InputDecl.fresh
  outputs := kind.outputDecls.map OutputDecl.fresh
  bump := .unshifted
  filterWidth := 0
  stochastic := true
  expanded := false

def typeName (n : Node) : String := n.kind.typeName

def role (n : Node) : Role := n.kind.role

/-! ### Sockets -/

def inputSlot? (n : Node) (name : String) : Option Nat := n.inputs.findIdx? (·.name == name)

def outputSlot? (n : Node) (name : String) : Option Nat := n.outputs.findIdx? (·.name == name)

def input? (n : Node) (name : String) : Option Input := n.inputs.find? (·.name == name)

def output? (n : Node) (name : String) : Option Output := n.outputs.find? (·.name == name)

def literal? (n : Node) (name : String) : Option Literal := (n.input? name).map (·.literal)

/-- The number held by an input; zero if there is none. -/
def float (n : Node) (name : String) : Binary32 := ((n.literal? name).bind (·.float?)).getD 0

/-- The triple held by an input; zero if there is none. -/
def float3 (n : Node) (name : String) : Vec3 Binary32 :=
  ((n.literal? name).bind (·.float3?)).getD (Vec3.splat 0)

/-- The output linked to an input. -/
def link? (n : Node) (name : String) : Option OutputRef := (n.input? name).bind (·.link)

def isLinked (n : Node) (name : String) : Bool := (n.link? name).isSome

/-- The outputs that the node's inputs are linked to, in the order of the inputs. -/
def links (n : Node) : List OutputRef := n.inputs.filterMap (·.link)

def hasLinkedInput (n : Node) : Bool := n.inputs.any (·.isLinked)

def isConsumed (n : Node) : Bool := n.outputs.any (·.isConsumed)

/-- The input that takes the weight of a closure, in a surface or in a volume. -/
def weightSlot? (n : Node) (volume : Bool) : Option Nat :=
  n.inputSlot? (if volume then "VolumeMixWeight" else "SurfaceMixWeight")

def modifyInput (n : Node) (slot : Nat) (f : Input → Input) : Node :=
  { n with inputs := n.inputs.modify slot f }

def modifyOutput (n : Node) (slot : Nat) (f : Output → Output) : Node :=
  { n with outputs := n.outputs.modify slot f }

/-- Stores a literal in the input of a given name, if there is one. -/
def store (n : Node) (name : String) (literal : Literal) : Node :=
  match n.inputSlot? name with
  | some slot => n.modifyInput slot (Input.store literal)
  | none => n

/-- The node without its links. -/
def unlinked (n : Node) : Node :=
  { n with inputs := n.inputs.map Input.unlink, outputs := n.outputs.map Output.unlink }

/-- A copy of the node for another place in the graph: unlinked, and to be expanded anew. -/
def copy (n : Node) : Node := { n.unlinked with expanded := false }

/-! ### Properties -/

/-- Whether each output is an affine function of the linked inputs taken together. -/
def isLinear (n : Node) : Bool :=
  match n.kind with
  | .math op _ =>
    match op with
    | .add | .subtract | .multiply | .multiplyAdd => n.links.length ≤ 1
    | .divide => !n.isLinked "Value2"
    | _ => false
  | .vectorMath op =>
    match op with
    | .add | .subtract | .multiply | .multiplyAdd => n.links.length ≤ 1
    | .divide => !n.isLinked "Vector2"
    | _ => false
  | .mix mode clamped =>
    match mode with
    | .blend | .add | .multiply | .subtract => !clamped && !n.isLinked "Fac"
    | _ => false
  | .convert .. | .mixClosure | .addClosure => true
  | kind => kind.supportsVolume

/-- Whether two inputs cannot be told apart, as far as this can be said without knowing what they
are linked to. -/
def sameInput (a b : Input) : Bool :=
  match a.link, b.link with
  | none, none => a.literal == b.literal
  | some _, some _ => true
  | _, _ => false

/-- Whether two nodes compute the same from the same linked inputs. -/
def agrees (m n : Node) : Bool :=
  m.kind == n.kind && m.bump == n.bump && m.inputs.length == n.inputs.length &&
    (m.inputs.zip n.inputs).all fun (a, b) => sameInput a b

/-- Whether two nodes compute the same: they agree, and are linked to the same outputs. -/
def interchangeable (m n : Node) : Bool :=
  m.agrees n && (m.inputs.zip n.inputs).all fun (a, b) => a.link == b.link

/-- The bytes under which a node enters a hash: type, settings, bump sample, then name and literal
of each input. Links are not part of them. -/
def contentBytes (n : Node) : List UInt8 :=
  utf8 n.typeName ++ utf8 n.kind.text ++ [n.bump.code] ++
    n.inputs.flatMap fun input => utf8 input.name ++ input.literal.bytes

end Node

end Shading
