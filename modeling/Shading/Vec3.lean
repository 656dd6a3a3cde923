import Shading.Scalar

/-!
# Triples of numbers

Colours, vectors, points and normals share one shape. Every sum is taken from left to right, since
the order of binary32 operations shows in the last bit. -/

namespace Shading

structure Vec3 (α : Type) where
  x : α
  y : α
  z : α
deriving BEq

namespace Vec3

variable {α β γ : Type}

/-- The triple with three equal components. -/
def splat (a : α) : Vec3 α := ⟨a, a, a⟩

def map (f : α → β) (v : Vec3 α) : Vec3 β := ⟨f v.x, f v.y, f v.z⟩

def zipWith (f : α → β → γ) (v : Vec3 α) (w : Vec3 β) : Vec3 γ := ⟨f v.x w.x, f v.y w.y, f v.z w.z⟩

def toList (v : Vec3 α) : List α := [v.x, v.y, v.z]

/-- Whether a test holds of all three components. -/
def all (p : α → Bool) (v : Vec3 α) : Bool := p v.x && p v.y && p v.z

variable [Scalar α]

def zero : Vec3 α := splat Scalar.zero

def dot (v w : Vec3 α) : α := v.x * w.x + v.y * w.y + v.z * w.z

def cross (v w : Vec3 α) : Vec3 α :=
  ⟨v.y * w.z - v.z * w.y, v.z * w.x - v.x * w.z, v.x * w.y - v.y * w.x⟩

def length (v : Vec3 α) : α := Scalar.sqrt (dot v v)

/-- The vector divided by its length; a vector of length zero gives the zero vector. -/
def normalize (v : Vec3 α) : Vec3 α :=
  if Scalar.same (length v) Scalar.zero then zero else v.map (· / length v)

/-- The point at parameter `t` on the line from `v` to `w`. -/
def lerp (v w : Vec3 α) (t : α) : Vec3 α := zipWith (fun a b => a + (b - a) * t) v w

def saturate (v : Vec3 α) : Vec3 α := v.map Scalar.saturate

end Vec3

end Shading
