import Shading.Binary32

/-!
# Numbers in JSON

A JSON number is kept as it is written: sign, digits, fraction and exponent. Its value is an integer
when it is written as one that fits 64 bits, and a binary64 number otherwise. For the latter, digits
are taken into a 64-bit significand as long as they fit, and the significand is then scaled by a
power of ten in binary64. -/

namespace Shading.Json

/-- A written number. The list of fraction digits is empty exactly when there is no fraction; the
exponent is a sign (true for minus) and digits. -/
structure Number where
  negative : Bool
  whole : List Char
  fraction : List Char
  exponent : Option (Bool × List Char)

/-- The value of a number as it is read. -/
inductive Numeral where
  | integer (n : Int)
  | real (x : Float)

namespace Number

def ofNat (n : Nat) : Number := ⟨false, Nat.toDigits 10 n, [], none⟩

def ofInt (n : Int) : Number := ⟨n < 0, Nat.toDigits 10 n.natAbs, [], none⟩

def digitValue (c : Char) : Nat := c.toNat - '0'.toNat

/-- The number that a list of digits denotes, continuing after the digits of `n`. -/
def digitsValue (n : Nat) (ds : List Char) : Nat := ds.foldl (fun m d => 10 * m + digitValue d) n

/-- A significand that takes digits until one no longer fits 64 bits. `taken` counts the digits
taken, `dropped` those that came after the last one that fitted. -/
structure Significand where
  value : Nat
  taken : Nat
  dropped : Nat

/-- Appends one digit to a significand. -/
def Significand.push (s : Significand) (d : Char) : Significand :=
  let next := 10 * s.value + digitValue d
  if s.dropped = 0 ∧ next < 1 <<< 64 then { s with value := next, taken := s.taken + 1 }
  else { s with dropped := s.dropped + 1 }

/-- The significand `n` continued with a list of digits. -/
def Significand.ofDigits (n : Nat) (ds : List Char) : Significand := ds.foldl push ⟨n, 0, 0⟩

/-- The power of ten nearest in binary64. -/
def powerOfTen (k : Nat) : Float := Float.ofScientific 1 false k

/-- The product of a significand and a power of ten in binary64, or none if it is too large. An
exponent below -308 is applied in two steps. -/
def scaled? (n : Nat) (e : Int) : Option Float :=
  let x := Float.ofNat n
  if 308 < e then if n = 0 then some x else none
  else if 0 ≤ e then
    let y := x * powerOfTen e.toNat
    if y.isInf then none else some y
  else if -308 ≤ e then some (x / powerOfTen (-e).toNat)
  else if -616 ≤ e then some (x / powerOfTen 308 / powerOfTen (-e - 308).toNat)
  else some 0

/-- The exponent that is written out. -/
def writtenExponent (n : Number) : Int :=
  match n.exponent with
  | none => 0
  | some (true, ds) => -(digitsValue 0 ds : Int)
  | some (false, ds) => digitsValue 0 ds

def signed (n : Number) (x : Float) : Float := if n.negative then -x else x

/-- The value of a number, or none if it is too large for binary64. Zero with a minus sign is the
negative zero of binary64. -/
def value? (n : Number) : Option Numeral :=
  let whole := Significand.ofDigits 0 n.whole
  if n.fraction = [] ∧ n.exponent = none ∧ whole.dropped = 0 then
    if !n.negative then some (.integer whole.value)
    else if whole.value = 0 ∨ 1 <<< 63 < whole.value then some (.real (-Float.ofNat whole.value))
    else some (.integer (-whole.value))
  else
    let all := Significand.ofDigits whole.value n.fraction
    (scaled? all.value (whole.dropped - all.taken + n.writtenExponent)).map fun x =>
      .real (n.signed x)

end Number

/-- The binary32 number nearest to a numeral. A real is already rounded to binary64, and is rounded
a second time. -/
def Numeral.toBinary32 : Numeral → Binary32
  | .integer n => Binary32.ofInt n
  | .real x => Binary32.ofFloat32 x.toFloat32

end Shading.Json
