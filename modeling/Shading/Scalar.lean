import Shading.Binary32

/-!
# Scalars

The evaluators of arithmetic nodes are written once for every type with the operations of a
`Scalar`. Literals are evaluated in binary32; the same definitions can be read over any other number
type, for instance over the rationals. -/

namespace Shading

/-- The operations that evaluating a node needs. `same` is the equality test of the arithmetic, so
in binary32 a NaN is not the same as itself, and the two zeros are the same. -/
class Scalar (α : Type) extends Add α, Sub α, Mul α, Div α where
  zero : α
  one : α
  same : α → α → Bool
  less : α → α → Bool
  abs : α → α
  sqrt : α → α
  sin : α → α
  cos : α → α
  pow : α → α → α
  isWhole : α → Bool

instance : Scalar Binary32 where
  zero := 0
  one := 1
  same := (· == ·)
  less a b := decide (a < b)
  abs := Binary32.abs
  sqrt := Binary32.sqrt
  sin := Binary32.sin
  cos := Binary32.cos
  pow := Binary32.pow
  isWhole := Binary32.isWhole

namespace Scalar

variable {α : Type} [Scalar α]

/-- The smaller operand. An operand that is not the same as itself yields the other one, and the
second of two equal operands wins. -/
def min (a b : α) : α := if !same b b then a else if less a b then a else b

/-- The larger operand, under the conventions of `Scalar.min`. -/
def max (a b : α) : α := if !same b b then a else if less b a then a else b

/-- Restricts a number to the interval from zero to one. What compares with neither end stays as it
is. -/
def saturate (x : α) : α :=
  let y := if less x zero then zero else x
  if less one y then one else y

/-- Division in which a zero divisor gives zero. -/
def safeDiv (a b : α) : α := if same b zero then zero else a / b

/-- Power in which a negative base with a fractional exponent gives zero. -/
def safePow (a b : α) : α := if less a zero && !isWhole b then zero else pow a b

end Scalar

end Shading
