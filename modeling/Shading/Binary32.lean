/-!
# Binary32 numbers

A binary32 number is kept as its 32 bits: a sign, an exponent field of 8 bits and a fraction field of
23 bits. A finite number is `± significand · 2 ^ (scale - 150)`. An exponent field of 255 means an
infinity, or a NaN if the fraction is not zero; there are many NaNs, and they stay apart.

Arithmetic on numbers is that of `Float32`. A NaN among the operands is passed on with its bits, only
made quiet, and the first of two wins; an operation that has no value gives one fixed NaN. -/

namespace Shading

/-- A binary32 number. Numbers are equal if their bits are; the test `==` and the order compare their
values, so that the two zeros are the same, and a NaN compares with nothing. -/
structure Binary32 where
  bits : UInt32
deriving DecidableEq

namespace Binary32

/-! ### Fields -/

def exponentField (x : Binary32) : Nat := (x.bits.toNat >>> 23) % 256

def fractionField (x : Binary32) : Nat := x.bits.toNat % (1 <<< 23)

def isNegative (x : Binary32) : Bool := 1 <<< 31 ≤ x.bits.toNat

def isNaN (x : Binary32) : Bool := exponentField x == 255 && fractionField x != 0

/-- Whether the number is a NaN that is not quiet: the first bit of its fraction is not set. -/
def isSignaling (x : Binary32) : Bool := x.isNaN && fractionField x < 1 <<< 22

/-- The significand of a finite number, with the leading one that normal numbers do not store. -/
def significand (x : Binary32) : Nat :=
  if exponentField x = 0 then fractionField x else (1 <<< 23) + fractionField x

/-- The exponent of a finite number, shifted so that `2 ^ (scale - 150)` is the unit of its
significand. -/
def scale (x : Binary32) : Nat := max (exponentField x) 1

/-! ### Integers -/

/-- The whole part of the magnitude. An infinity counts as `2 ^ 128`. -/
def wholeMagnitude (x : Binary32) : Nat :=
  if 150 ≤ scale x then significand x <<< (scale x - 150) else significand x >>> (150 - scale x)

/-- The number without its fraction, rounded toward zero; NaN gives zero. -/
def wholePart (x : Binary32) : Int :=
  if x.isNaN then 0 else if isNegative x then -(wholeMagnitude x : Int) else wholeMagnitude x

/-- Infinities and the numbers without a fraction are whole, NaN is not. -/
def isWhole (x : Binary32) : Bool :=
  !x.isNaN && (150 ≤ scale x || significand x % (1 <<< (150 - scale x)) == 0)

def isOdd (x : Binary32) : Bool := x.isWhole && wholeMagnitude x % 2 == 1

/-- The 32-bit integer next to the number in the direction of zero; what lies outside the range goes
to its nearer end, NaN to zero. -/
def toInt32 (x : Binary32) : Int32 :=
  Int32.ofInt (min (max (wholePart x) (-0x80000000)) 0x7fffffff)

/-! ### Arithmetic -/

/-- The quiet NaN with the sign and, but for its first bit, the fraction of a NaN. -/
def quiet (x : Binary32) : Binary32 := ⟨x.bits ||| 0x00400000⟩

/-- The NaN of an operation that has no value. -/
def invalid : Binary32 := ⟨0xffc00000⟩

def toFloat32 (x : Binary32) : Float32 := Float32.ofBits x.bits

/-- The result of an operation whose operands are no NaNs. -/
def ofFloat32 (x : Float32) : Binary32 := if x.isNaN then invalid else ⟨x.toBits⟩

def ofInt (n : Int) : Binary32 := ofFloat32 (Float32.ofInt n)

def ofInt32 (n : Int32) : Binary32 := ofInt n.toInt

/-- An operation on one number. -/
def apply₁ (f : Float32 → Float32) (a : Binary32) : Binary32 :=
  if a.isNaN then a.quiet else ofFloat32 (f a.toFloat32)

/-- An operation on two numbers. -/
def apply₂ (f : Float32 → Float32 → Float32) (a b : Binary32) : Binary32 :=
  if a.isNaN then a.quiet else if b.isNaN then b.quiet else ofFloat32 (f a.toFloat32 b.toFloat32)

instance (n : Nat) : OfNat Binary32 n := ⟨ofInt n⟩

instance : OfScientific Binary32 := ⟨fun m s e => ofFloat32 (Float32.ofScientific m s e)⟩

instance : Add Binary32 := ⟨apply₂ (· + ·)⟩

instance : Sub Binary32 := ⟨apply₂ (· - ·)⟩

instance : Mul Binary32 := ⟨apply₂ (· * ·)⟩

instance : Div Binary32 := ⟨apply₂ (· / ·)⟩

instance : BEq Binary32 := ⟨fun a b => a.toFloat32 == b.toFloat32⟩

instance : LT Binary32 := ⟨fun a b => a.toFloat32 < b.toFloat32⟩

instance : LE Binary32 := ⟨fun a b => a.toFloat32 ≤ b.toFloat32⟩

instance (a b : Binary32) : Decidable (a < b) :=
  inferInstanceAs (Decidable (a.toFloat32 < b.toFloat32))

instance (a b : Binary32) : Decidable (a ≤ b) :=
  inferInstanceAs (Decidable (a.toFloat32 ≤ b.toFloat32))

/-- The number with a positive sign, also if it is a NaN. -/
def abs (x : Binary32) : Binary32 := ⟨x.bits &&& 0x7fffffff⟩

/-- The number with the other sign, also if it is a NaN. -/
def negate (x : Binary32) : Binary32 := ⟨x.bits ^^^ 0x80000000⟩

def sqrt : Binary32 → Binary32 := apply₁ Float32.sqrt

def sin : Binary32 → Binary32 := apply₁ Float32.sin

def cos : Binary32 → Binary32 := apply₁ Float32.cos

/-- A power with a NaN in it. Everything to the power of zero, and every power of one, is one, unless
the NaN is a signaling one. A negative base keeps its sign only under an even exponent. -/
def powNaN (a b : Binary32) : Binary32 :=
  if (b == 0 && !a.isSignaling) || (a == 1 && !b.isSignaling) then 1
  else if b.isNaN then a + b
  else if a.isNegative && b.isOdd then a.quiet.negate
  else a.quiet

def pow (a b : Binary32) : Binary32 :=
  if a.isNaN || b.isNaN then powNaN a b else ofFloat32 (Float32.pow a.toFloat32 b.toFloat32)

end Binary32

end Shading
