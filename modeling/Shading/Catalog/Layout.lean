import Shading.Catalog.Kind
import Shading.Socket

/-!
# The sockets of each kind

Sockets are found by name, so the names below are part of what a kind means. Where two sockets of
a node have one name, a name stands for the first of them. -/

namespace Shading

namespace InputDecl

def scalar (name : String) (initial : Binary32) : InputDecl := ⟨name, .float, .float initial, true, none⟩

def triple (name : String) (type : SocketType) (initial : Binary32) : InputDecl :=
  ⟨name, type, .float3 (Vec3.splat initial), true, none⟩

def closure (name : String) : InputDecl := ⟨name, .closure, .closure, true, none⟩

/-- The surface normal at the shading point, unless something else is linked. -/
def shadingNormal : InputDecl := ⟨"Normal", .normal, .float3 (Vec3.splat 0), true, some .normal⟩

/-- An input that only holds a literal. -/
def constant (name : String) (type : SocketType) : InputDecl :=
  ⟨name, type, Literal.zero type, false, none⟩

def ofScript (s : ScriptSocket) : InputDecl := ⟨s.name, s.type, Literal.zero s.type, true, none⟩

end InputDecl

def OutputDecl.ofScript (s : ScriptSocket) : OutputDecl := ⟨s.name, s.type⟩

namespace NodeKind

open InputDecl

/-- The inputs of a kind. -/
def inputDecls : NodeKind → List InputDecl
  | output =>
    [closure "Surface", closure "Volume", triple "Displacement" .vector 0, triple "Normal" .normal 0]
  | aovOutput _ => [triple "Color" .color 0, scalar "Value" 0]
  | value => [constant "Value" .float]
  | color => [constant "Value" .color]
  | convert source _ _ =>
    [⟨"value_" ++ source.name, source, Literal.zero source, true, none⟩]
  | emission _ =>
    [triple "Color" .color 0.8, scalar "Strength" 10, scalar "SurfaceMixWeight" 0,
      scalar "VolumeMixWeight" 0]
  | diffuse =>
    [triple "Color" .color 0.8, scalar "Roughness" 0, shadingNormal, scalar "SurfaceMixWeight" 0]
  | principled =>
    [triple "Base Color" .color 0.8, scalar "Metallic" 0, scalar "Roughness" 0.5, shadingNormal,
      scalar "SurfaceMixWeight" 0]
  | subsurface =>
    [triple "Color" .color 0.8, scalar "Scale" 1, triple "Radius" .vector 0.1, shadingNormal,
      scalar "SurfaceMixWeight" 0]
  | absorption => [triple "Color" .color 0.8, scalar "Density" 1, scalar "VolumeMixWeight" 0]
  | scatter =>
    [triple "Color" .color 0.8, scalar "Density" 1, scalar "Anisotropy" 0,
      scalar "VolumeMixWeight" 0]
  | mixClosure => [scalar "Fac" 0.5, closure "Closure1", closure "Closure2"]
  | addClosure => [closure "Closure1", closure "Closure2"]
  | mixClosureWeight => [scalar "Weight" 1, scalar "Fac" 1]
  | math .. => [scalar "Value1" 0.5, scalar "Value2" 0.5, scalar "Value3" 0]
  | clamp _ => [scalar "Value" 1, scalar "Min" 0, scalar "Max" 1]
  | vectorMath _ =>
    [triple "Vector1" .vector 0, triple "Vector2" .vector 0, triple "Vector3" .vector 0,
      scalar "Scale" 1]
  | mix .. => [scalar "Fac" 0.5, triple "Color1" .color 0, triple "Color2" .color 0]
  | geometry => []
  | textureCoordinate => []
  | namedAttribute _ => []
  | imageTexture _ => [⟨"Vector", .point, .float3 (Vec3.splat 0), true, some .textureUv⟩]
  | bump .. =>
    [scalar "Height" 1, scalar "SampleCenter" 0, scalar "SampleX" 0, scalar "SampleY" 0,
      shadingNormal, scalar "Strength" 1, scalar "Distance" 0.1, scalar "Filter Width" 0.1]
  | setNormal => [triple "Direction" .vector 0]
  | displacement _ =>
    [scalar "Height" 0, scalar "Midlevel" 0.5, scalar "Scale" 1, shadingNormal]
  | osl script => script.inputs.map ofScript

/-- The outputs of a kind. -/
def outputDecls : NodeKind → List OutputDecl
  | output => []
  | aovOutput _ => []
  | value => [⟨"Value", .float⟩]
  | color => [⟨"Color", .color⟩]
  | convert _ target _ => [⟨"value_" ++ target.name, target⟩]
  | emission _ => [⟨"Emission", .closure⟩]
  | diffuse => [⟨"BSDF", .closure⟩]
  | principled => [⟨"BSDF", .closure⟩]
  | subsurface => [⟨"BSSRDF", .closure⟩]
  | absorption => [⟨"Volume", .closure⟩]
  | scatter => [⟨"Volume", .closure⟩]
  | mixClosure => [⟨"Closure", .closure⟩]
  | addClosure => [⟨"Closure", .closure⟩]
  | mixClosureWeight => [⟨"Weight1", .float⟩, ⟨"Weight2", .float⟩]
  | math .. => [⟨"Value", .float⟩]
  | clamp _ => [⟨"Result", .float⟩]
  | vectorMath _ => [⟨"Value", .float⟩, ⟨"Vector", .vector⟩]
  | mix .. => [⟨"Color", .color⟩]
  | geometry =>
    [⟨"Position", .point⟩, ⟨"Normal", .normal⟩, ⟨"Tangent", .normal⟩, ⟨"True Normal", .normal⟩,
      ⟨"Incoming", .vector⟩, ⟨"Parametric", .point⟩, ⟨"Backfacing", .float⟩]
  | textureCoordinate =>
    [⟨"Generated", .point⟩, ⟨"Normal", .normal⟩, ⟨"UV", .point⟩, ⟨"Object", .point⟩]
  | namedAttribute _ => [⟨"Color", .color⟩, ⟨"Vector", .vector⟩, ⟨"Fac", .float⟩, ⟨"Alpha", .float⟩]
  | imageTexture _ => [⟨"Color", .color⟩, ⟨"Alpha", .float⟩]
  | bump .. => [⟨"Normal", .normal⟩]
  | setNormal => [⟨"Normal", .normal⟩]
  | displacement _ => [⟨"Displacement", .vector⟩]
  | osl script => script.outputs.map OutputDecl.ofScript

end NodeKind

end Shading
