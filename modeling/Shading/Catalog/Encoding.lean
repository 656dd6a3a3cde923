import Shading.Catalog.Kind
import Shading.Json.Fields
import Shading.Json.Parser
import Shading.Json.Printer

/-!
# Kinds in JSON

A kind is written as a tagged record: its name under `type`, then its settings. Reading accepts the
settings in any order and leaves out the ones that have a default. -/

namespace Shading

namespace Json

/-- Reads an enumerated setting of a kind. -/
def setting {α : Type} (ofName? : String → Option α) (v : Json) : Option α :=
  v.nestedEnumName?.bind ofName?

end Json

open Json

namespace ScriptSocket

def toJson (s : ScriptSocket) : Json := .obj [("name", .str s.name), ("type", .str s.type.name)]

def ofJson? (v : Json) : Option ScriptSocket := do
  match ← v.record? ["name", "type"] with
  | [name, type] => pure ⟨← required str? name, ← required (setting SocketType.ofName?) type⟩
  | _ => none

end ScriptSocket

namespace Script

def members (s : Script) : List (String × Json) :=
  [("name", .str s.name), ("bytecode_hash", .str s.bytecodeHash),
    ("inputs", .arr (s.inputs.map ScriptSocket.toJson)),
    ("outputs", .arr (s.outputs.map ScriptSocket.toJson))]

def sockets? (v : Json) : Option (List ScriptSocket) := v.items?.bind (·.mapM ScriptSocket.ofJson?)

def ofJson? (v : Json) : Option Script := do
  match ← v.record? ["name", "bytecode_hash", "inputs", "outputs"] with
  | [name, hash, inputs, outputs] =>
    pure ⟨← required str? name, ← optional "" str? hash, ← optional [] sockets? inputs,
      ← optional [] sockets? outputs⟩
  | _ => none

end Script

namespace NodeKind

/-- The settings of a kind, as the members of its record. -/
def settings : NodeKind → List (String × Json)
  | aovOutput name => [("name", .str name)]
  | convert source target automatic =>
    [("from", .str source.name), ("to", .str target.name), ("autoconvert", .bool automatic)]
  | emission bridging => [("from_auto_conversion", .bool bridging)]
  | math op clamped => [("math_type", .str op.name), ("use_clamp", .bool clamped)]
  | clamp mode => [("clamp_type", .str mode.name)]
  | vectorMath op => [("math_type", .str op.name)]
  | mix mode clamped => [("mix_type", .str mode.name), ("use_clamp", .bool clamped)]
  | namedAttribute name => [("name", .str name)]
  | imageTexture file => [("filename", .str file)]
  | bump invert objectSpace => [("invert", .bool invert), ("use_object_space", .bool objectSpace)]
  | displacement space => [("space", .str space.name)]
  | osl script => script.members
  | _ => []

def toJson (kind : NodeKind) : Json := .obj (("type", .str kind.tag) :: kind.settings)

/-- The kind written without any blank. This text is part of the hash of a node. -/
def text (kind : NodeKind) : String := kind.toJson.compact

/-- The kinds without settings. -/
def bare : List NodeKind :=
  [output, value, color, diffuse, principled, subsurface, absorption, scatter, mixClosure,
    addClosure, mixClosureWeight, geometry, textureCoordinate, setNormal]

/-- Reads the settings of the kind with a given name. -/
def ofSettings? (tag : String) (v : Json) : Option NodeKind := do
  match tag with
  | "aov_output" =>
    match ← v.record? ["name"] with
    | [name] => pure (aovOutput (← required str? name))
    | _ => none
  | "convert" =>
    match ← v.record? ["from", "to", "autoconvert"] with
    | [source, target, automatic] =>
      pure (convert (← required (setting SocketType.ofName?) source)
        (← required (setting SocketType.ofName?) target) (← optional false bool? automatic))
    | _ => none
  | "emission" =>
    match ← v.record? ["from_auto_conversion"] with
    | [bridging] => pure (emission (← optional false bool? bridging))
    | _ => none
  | "math" =>
    match ← v.record? ["math_type", "use_clamp"] with
    | [op, clamped] =>
      pure (math (← optional .add (setting MathOp.ofName?) op) (← optional false bool? clamped))
    | _ => none
  | "clamp" =>
    match ← v.record? ["clamp_type"] with
    | [mode] => pure (clamp (← optional .minMax (setting ClampMode.ofName?) mode))
    | _ => none
  | "vector_math" =>
    match ← v.record? ["math_type"] with
    | [op] => pure (vectorMath (← optional .add (setting VectorOp.ofName?) op))
    | _ => none
  | "mix" =>
    match ← v.record? ["mix_type", "use_clamp"] with
    | [mode, clamped] =>
      pure (mix (← optional .blend (setting BlendMode.ofName?) mode) (← optional false bool? clamped))
    | _ => none
  | "attribute" =>
    match ← v.record? ["name"] with
    | [name] => pure (namedAttribute (← required str? name))
    | _ => none
  | "image_texture" =>
    match ← v.record? ["filename"] with
    | [file] => pure (imageTexture (← required str? file))
    | _ => none
  | "bump" =>
    match ← v.record? ["invert", "use_object_space"] with
    | [invert, objectSpace] =>
      pure (bump (← optional false bool? invert) (← optional false bool? objectSpace))
    | _ => none
  | "displacement" =>
    match ← v.record? ["space"] with
    | [space] => pure (displacement (← optional .object (setting DisplacementSpace.ofName?) space))
    | _ => none
  | "osl" => pure (osl (← Script.ofJson? v))
  | tag => if v.isEmptyRecord then bare.find? (·.tag == tag) else none

/-- Reads a kind that stands below `depth` further levels of lists and objects. -/
def ofJsonWithin? (depth : Nat) (v : Json) : Option NodeKind := do
  if !v.readable depth then none
  let (tag, settings) ← v.tagged? "type"
  ofSettings? tag settings

/-- The greatest number of nested lists and objects that is read. -/
def maxDepth : Nat := 127

def ofJson? (v : Json) : Option NodeKind := ofJsonWithin? maxDepth v

/-- Reads a kind from its text. -/
def parse? (s : String) : Option NodeKind := (Json.parse? s).bind ofJson?

end NodeKind

end Shading
