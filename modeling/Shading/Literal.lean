import Shading.Operation

/-!
# Socket types and literals

An input socket has a type and holds a literal of the shape of that type. Storing a literal converts
it: numbers splat into triples, triples collapse into numbers, and what has no number is zero. -/

namespace Shading

/-- The bytes of a number, least significant first. -/
def littleEndian (count n : Nat) : List UInt8 :=
  (List.range count).map fun i => UInt8.ofNat (n >>> (8 * i))

/-- The bytes of a text in UTF-8. -/
def utf8 (s : String) : List UInt8 := s.toUTF8.toList

/-! ### Socket types -/

inductive SocketType where
  | boolean | float | int | color | vector | point | normal | string | closure
deriving DecidableEq

namespace SocketType

def name : SocketType → String
  | boolean => "boolean"
  | float => "float"
  | int => "int"
  | color => "color"
  | vector => "vector"
  | point => "point"
  | normal => "normal"
  | string => "string"
  | closure => "closure"

/-- The name as messages write it. -/
def title : SocketType → String
  | boolean => "Boolean"
  | float => "Float"
  | int => "Int"
  | color => "Color"
  | vector => "Vector"
  | point => "Point"
  | normal => "Normal"
  | string => "String"
  | closure => "Closure"

def all : List SocketType :=
  [boolean, float, int, color, vector, point, normal, string, closure]

def ofName? (s : String) : Option SocketType := all.find? (·.name == s)

/-- Vectors, points and normals are interchangeable along a link. -/
def isSpatial : SocketType → Bool
  | vector | point | normal => true
  | _ => false

/-- The types whose literals are triples. -/
def isFloat3 : SocketType → Bool
  | color | vector | point | normal => true
  | _ => false

/-- The types that hold a number or a triple of numbers in floating point. -/
def isFloating (type : SocketType) : Bool := type == float || type.isFloat3

/-- The types that hold a single number. -/
def isNumber : SocketType → Bool
  | float | int => true
  | _ => false

/-- Whether an output of the first type feeds an input of the second without a conversion. -/
def linksTo (source target : SocketType) : Bool :=
  source == target || (source.isSpatial && target.isSpatial)

end SocketType

/-! ### Literals -/

/-- The value stored in an input. A closure input stores no value besides being one. The equality
test `==` compares numbers as binary32 does. -/
inductive Literal where
  | boolean (b : Bool)
  | float (x : Binary32)
  | int (n : Int32)
  | float3 (v : Vec3 Binary32)
  | string (s : String)
  | closure
deriving BEq

namespace Literal

/-- The zero of a socket type. -/
def zero : SocketType → Literal
  | .boolean => boolean false
  | .float => float 0
  | .int => int 0
  | .color | .vector | .point | .normal => float3 (Vec3.splat 0)
  | .string => string ""
  | .closure => closure

/-- The brightness of a colour: its components weighted as the eye weights them. -/
def luminance (c : Vec3 Binary32) : Binary32 := c.x * 0.2126 + c.y * 0.7152 + c.z * 0.0722

def average (v : Vec3 Binary32) : Binary32 := (v.x + v.y + v.z) / 3

/-- The literal as one number. A triple gives its luminance if it is known to be a colour, and its
average otherwise. -/
def toScalar (fromColor : Bool) : Literal → Binary32
  | boolean b => if b then 1 else 0
  | float x => x
  | int n => Binary32.ofInt32 n
  | float3 v => if fromColor then luminance v else average v
  | string _ => 0
  | closure => 0

/-- The literal as a triple: a triple stays, a number is repeated. -/
def toFloat3 (fromColor : Bool) : Literal → Vec3 Binary32
  | float3 v => v
  | l => Vec3.splat (l.toScalar fromColor)

/-- The literal brought into the shape of a socket type. -/
def convert (l : Literal) (type : SocketType) (fromColor : Bool) : Literal :=
  match type with
  | .float => float (l.toScalar fromColor)
  | .int => int (l.toScalar fromColor).toInt32
  | .boolean => boolean (l.toScalar fromColor != 0)
  | .color | .vector | .point | .normal => float3 (l.toFloat3 fromColor)
  | .string => match l with
    | string s => string s
    | _ => string ""
  | .closure => closure

/-- The number of a scalar literal. -/
def float? : Literal → Option Binary32
  | float x => some x
  | int n => some (Binary32.ofInt32 n)
  | _ => none

def float3? : Literal → Option (Vec3 Binary32)
  | float3 v => some v
  | _ => none

def boolean? : Literal → Option Bool
  | boolean b => some b
  | _ => none

/-- Whether the literal is the number zero or the triple of zeros. -/
def isZero : Literal → Bool
  | float x => x == 0
  | int n => n == 0
  | float3 v => v.all (· == 0)
  | _ => false

/-- Whether the literal is the number one or the triple of ones. -/
def isOne : Literal → Bool
  | float x => x == 1
  | int n => n == 1
  | float3 v => v.all (· == 1)
  | _ => false

/-- Restricts numbers and triples to the unit interval. -/
def saturate : Literal → Literal
  | float x => float (Scalar.saturate x)
  | float3 v => float3 v.saturate
  | l => l

/-- The bytes of a binary32 number. -/
def floatBytes (x : Binary32) : List UInt8 := littleEndian 4 x.bits.toNat

/-- The bytes under which a literal enters a hash: a tag for its shape, then its contents. A text is
preceded by its length. -/
def bytes : Literal → List UInt8
  | boolean b => [0, if b then 1 else 0]
  | float x => 1 :: floatBytes x
  | int n => 2 :: littleEndian 4 n.toUInt32.toNat
  | float3 v => 3 :: (v.toList.map floatBytes).flatten
  | string s => 4 :: (littleEndian 8 s.utf8ByteSize ++ utf8 s)
  | closure => [5]

end Literal

end Shading
