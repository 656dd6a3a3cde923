import Shading.Vec3

/-!
# Arithmetic operations

The operations of scalar math, vector math, colour mixing and clamping nodes. Each family has the
names under which it is written, and an evaluator over any `Scalar`. -/

namespace Shading

/-! ### Scalar math -/

inductive MathOp where
  | add | subtract | multiply | divide | multiplyAdd | power
  | minimum | maximum | absolute | sine | cosine
deriving DecidableEq

namespace MathOp

def name : MathOp → String
  | add => "add"
  | subtract => "subtract"
  | multiply => "multiply"
  | divide => "divide"
  | multiplyAdd => "multiply_add"
  | power => "power"
  | minimum => "minimum"
  | maximum => "maximum"
  | absolute => "absolute"
  | sine => "sine"
  | cosine => "cosine"

def all : List MathOp :=
  [add, subtract, multiply, divide, multiplyAdd, power, minimum, maximum, absolute, sine, cosine]

def ofName? (s : String) : Option MathOp := all.find? (·.name == s)

/-- The value of a scalar math node on its three operands. -/
def eval {α : Type} [Scalar α] (op : MathOp) (a b c : α) : α :=
  match op with
  | add => a + b
  | subtract => a - b
  | multiply => a * b
  | divide => Scalar.safeDiv a b
  | multiplyAdd => a * b + c
  | power => Scalar.safePow a b
  | minimum => Scalar.min a b
  | maximum => Scalar.max a b
  | absolute => Scalar.abs a
  | sine => Scalar.sin a
  | cosine => Scalar.cos a

end MathOp

/-! ### Vector math -/

inductive VectorOp where
  | add | subtract | multiply | divide | multiplyAdd | crossProduct
  | dotProduct | distance | length | scale | normalize | absolute
deriving DecidableEq

namespace VectorOp

def name : VectorOp → String
  | add => "add"
  | subtract => "subtract"
  | multiply => "multiply"
  | divide => "divide"
  | multiplyAdd => "multiply_add"
  | crossProduct => "cross_product"
  | dotProduct => "dot_product"
  | distance => "distance"
  | length => "length"
  | scale => "scale"
  | normalize => "normalize"
  | absolute => "absolute"

def all : List VectorOp :=
  [add, subtract, multiply, divide, multiplyAdd, crossProduct, dotProduct, distance, length, scale,
    normalize, absolute]

def ofName? (s : String) : Option VectorOp := all.find? (·.name == s)

/-- The scalar and the vector result of a vector math node. The result that an operation does not
have is zero. -/
def eval {α : Type} [Scalar α] (op : VectorOp) (a b c : Vec3 α) (k : α) : α × Vec3 α :=
  match op with
  | add => (Scalar.zero, Vec3.zipWith (· + ·) a b)
  | subtract => (Scalar.zero, Vec3.zipWith (· - ·) a b)
  | multiply => (Scalar.zero, Vec3.zipWith (· * ·) a b)
  | divide => (Scalar.zero, Vec3.zipWith Scalar.safeDiv a b)
  | multiplyAdd => (Scalar.zero, Vec3.zipWith (· + ·) (Vec3.zipWith (· * ·) a b) c)
  | crossProduct => (Scalar.zero, Vec3.cross a b)
  | dotProduct => (Vec3.dot a b, Vec3.zero)
  | distance => (Vec3.length (Vec3.zipWith (· - ·) a b), Vec3.zero)
  | length => (Vec3.length a, Vec3.zero)
  | scale => (Scalar.zero, a.map (· * k))
  | normalize => (Scalar.zero, Vec3.normalize a)
  | absolute => (Scalar.zero, a.map Scalar.abs)

end VectorOp

/-! ### Colour mixing -/

inductive BlendMode where
  | blend | add | multiply | subtract | screen | difference | darken | lighten
deriving DecidableEq

namespace BlendMode

def name : BlendMode → String
  | blend => "blend"
  | add => "add"
  | multiply => "multiply"
  | subtract => "subtract"
  | screen => "screen"
  | difference => "difference"
  | darken => "darken"
  | lighten => "lighten"

def all : List BlendMode := [blend, add, multiply, subtract, screen, difference, darken, lighten]

def ofName? (s : String) : Option BlendMode := all.find? (·.name == s)

/-- The mix of two colours by a factor, which is first restricted to the unit interval. -/
def eval {α : Type} [Scalar α] (mode : BlendMode) (fac : α) (c₁ c₂ : Vec3 α) : Vec3 α :=
  let t := Scalar.saturate fac
  let one : α := Scalar.one
  match mode with
  | blend => Vec3.lerp c₁ c₂ t
  | add => Vec3.zipWith (fun x y => x + t * y) c₁ c₂
  | multiply => Vec3.zipWith (fun x y => x * (one - t + t * y)) c₁ c₂
  | subtract => Vec3.zipWith (fun x y => x - t * y) c₁ c₂
  | screen => Vec3.zipWith (fun x y => one - (one - t + t * (one - y)) * (one - x)) c₁ c₂
  | difference => Vec3.lerp c₁ (Vec3.zipWith (fun x y => Scalar.abs (x - y)) c₁ c₂) t
  | darken => Vec3.lerp c₁ (Vec3.zipWith Scalar.min c₁ c₂) t
  | lighten => Vec3.lerp c₁ (Vec3.zipWith Scalar.max c₁ c₂) t

end BlendMode

/-! ### Clamping -/

/-- How a clamp node reads its bounds: as they stand, or exchanged when the lower one is larger. -/
inductive ClampMode where
  | minMax | range
deriving DecidableEq

namespace ClampMode

def name : ClampMode → String
  | minMax => "min_max"
  | range => "range"

def all : List ClampMode := [minMax, range]

def ofName? (s : String) : Option ClampMode := all.find? (·.name == s)

/-- The value restricted to the bounds. The lower bound is applied first, so the upper one wins
when they contradict each other. -/
def eval {α : Type} [Scalar α] (mode : ClampMode) (value lo hi : α) : α :=
  if mode = range ∧ Scalar.less hi lo then Scalar.min (Scalar.max value hi) lo
  else Scalar.min (Scalar.max value lo) hi

end ClampMode

end Shading
