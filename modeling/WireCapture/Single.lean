/-!
# Single-precision numbers

A number in the 32-bit binary format, kept as its bits: one sign bit, eight
exponent bits, 23 fraction bits.
-/
namespace WireCapture

structure Single where
  bits : UInt32
  deriving DecidableEq, Repr

namespace Single

def zero : Single := ⟨0⟩

def isNegative (s : Single) : Bool := 0x80000000 ≤ s.bits.toNat

/-- The exponent field, without its bias removed. -/
def exponent (s : Single) : Nat := s.bits.toNat / 0x800000 % 0x100

def fraction (s : Single) : Nat := s.bits.toNat % 0x800000

/-- Neither infinite nor a NaN. -/
def isFinite (s : Single) : Bool := s.exponent != 255

/-- The quotient rounded to the nearest number, a half to the even one. -/
def roundDiv (n d : Nat) : Nat :=
  let q := n / d
  let r := 2 * (n % d)
  if d < r || (r == d && q % 2 == 1) then q + 1 else q

/-- Bits of the nearest number to a natural number below `2 ^ 128`. A carry out
of the rounded significand moves on into the exponent. -/
def magnitude (n : Nat) : Nat :=
  if n = 0 then 0
  else
    let e := n.log2
    let significand := roundDiv (n * 0x800000) (Nat.pow 2 e)
    (e + 127) * 0x800000 + (significand - 0x800000)

/-- The nearest number to an integer, the even one of two. -/
def ofInt (n : Int) : Single :=
  ⟨UInt32.ofNat (magnitude n.natAbs + if n < 0 then 0x80000000 else 0)⟩

end Single

end WireCapture
