import Shading.Literal

/-!
# The kinds of nodes

The catalog is closed: a node is of one of these kinds, and a kind carries the settings that are not
held by sockets. The role of a kind says how compilation treats its nodes. -/

namespace Shading

/-- The space in which a displacement node reads its height. -/
inductive DisplacementSpace where
  | object | world
deriving DecidableEq

namespace DisplacementSpace

def name : DisplacementSpace → String
  | object => "object"
  | world => "world"

def all : List DisplacementSpace := [object, world]

def ofName? (s : String) : Option DisplacementSpace := all.find? (·.name == s)

end DisplacementSpace

/-- A socket that a script declares. -/
structure ScriptSocket where
  name : String
  type : SocketType
deriving DecidableEq

/-- A compiled OSL script: what it computes is known only by the hash of its bytecode. -/
structure Script where
  name : String
  bytecodeHash : String
  inputs : List ScriptSocket
  outputs : List ScriptSocket
deriving DecidableEq

/-- The kinds of nodes. A conversion is automatic if it was inserted between two sockets of
different types, and an emission is bridging if it was inserted to make a closure out of a value. -/
inductive NodeKind where
  | output
  | aovOutput (name : String)
  | value
  | color
  | convert (source target : SocketType) (automatic : Bool)
  | emission (bridging : Bool)
  | diffuse
  | principled
  | subsurface
  | absorption
  | scatter
  | mixClosure
  | addClosure
  | mixClosureWeight
  | math (op : MathOp) (clamped : Bool)
  | clamp (mode : ClampMode)
  | vectorMath (op : VectorOp)
  | mix (mode : BlendMode) (clamped : Bool)
  | geometry
  | textureCoordinate
  | namedAttribute (name : String)
  | imageTexture (file : String)
  | bump (invert objectSpace : Bool)
  | setNormal
  | displacement (space : DisplacementSpace)
  | osl (script : Script)
deriving DecidableEq

/-- What a node is to the compilation of a graph. -/
inductive Role where
  | plain
  | proxy
  | autoConvert
  | combineClosure
  | closure
  | output
  | aovOutput
  | script
  | bump
  | geometry
deriving DecidableEq

/-- The families of closures. -/
inductive ClosureFamily where
  | bsdf | bssrdf | principled | volume | emission
deriving DecidableEq

/-- The closure slots that one node of a family occupies at render time. -/
def ClosureFamily.slots : ClosureFamily → Nat
  | bsdf => 1
  | emission => 1
  | bssrdf => 3
  | principled => 12
  | volume => 32

namespace NodeKind

/-- The conversion of a type to itself. -/
def proxy (type : SocketType) : NodeKind := convert type type false

/-- The name of a kind without its settings. -/
def tag : NodeKind → String
  | output => "output"
  | aovOutput _ => "aov_output"
  | value => "value"
  | color => "color"
  | convert .. => "convert"
  | emission _ => "emission"
  | diffuse => "diffuse_bsdf"
  | principled => "principled_bsdf"
  | subsurface => "subsurface_scattering"
  | absorption => "absorption_volume"
  | scatter => "scatter_volume"
  | mixClosure => "mix_closure"
  | addClosure => "add_closure"
  | mixClosureWeight => "mix_closure_weight"
  | math .. => "math"
  | clamp _ => "clamp"
  | vectorMath _ => "vector_math"
  | mix .. => "mix"
  | geometry => "geometry"
  | textureCoordinate => "texture_coordinate"
  | namedAttribute _ => "attribute"
  | imageTexture _ => "image_texture"
  | bump .. => "bump"
  | setNormal => "set_normal"
  | displacement _ => "displacement"
  | osl _ => "osl"

/-- The name of a kind in listings: the types of a conversion and the name of a script are part of
it. -/
def typeName : NodeKind → String
  | convert source target _ => "convert_" ++ source.name ++ "_to_" ++ target.name
  | osl script => "osl_" ++ script.name
  | kind => kind.tag

def role : NodeKind → Role
  | output => .output
  | aovOutput _ => .aovOutput
  | convert source target automatic =>
    if source = target then .proxy else if automatic then .autoConvert else .plain
  | mixClosure | addClosure => .combineClosure
  | emission _ | diffuse | principled | subsurface | absorption | scatter => .closure
  | osl _ => .script
  | bump .. => .bump
  | geometry => .geometry
  | _ => .plain

def closureFamily? : NodeKind → Option ClosureFamily
  | emission _ => some .emission
  | diffuse => some .bsdf
  | principled => some .principled
  | subsurface => some .bssrdf
  | absorption | scatter => some .volume
  | _ => none

/-- Whether nodes of the kind can be part of a volume. -/
def supportsVolume : NodeKind → Bool
  | absorption | scatter | emission _ => true
  | _ => false

/-- Whether the kind is a clamped scalar operation. -/
def isClampedMath : NodeKind → Bool
  | math _ clamped => clamped
  | _ => false

end NodeKind

end Shading
