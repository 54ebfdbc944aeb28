import WireCapture.Single

/-!
# Shortest decimals

The decimal numbers with exponent `k` form a grid, finer for smaller `k`. A
finite number is written as a point of the coarsest grid on which some point
reads back as the number; of two such points the nearer is taken, and of two
equally near ones the even one.
-/
namespace WireCapture

/-- The number `coefficient * 10 ^ exponent`. -/
structure Decimal where
  coefficient : Nat
  exponent : Int
  deriving DecidableEq, Repr

namespace Decimal

def digits (d : Decimal) : List Char := Nat.toDigits 10 d.coefficient

/-- Exponent of the first digit. -/
def leading (d : Decimal) : Int := d.exponent + d.digits.length - 1

end Decimal

namespace Single

/-- A finite magnitude and the numbers that read back as it: those between `low`
and `high`, in units of `2 ^ scale`, and the two ends themselves if `closed`. -/
structure Interval where
  low : Nat
  middle : Nat
  high : Nat
  scale : Int
  closed : Bool
  deriving DecidableEq, Repr

/-- The unit is a quarter of the distance to the next number above. Below a power
of two the neighbour is only half as far away. -/
def interval (s : Single) : Interval :=
  let f := s.fraction
  let e := s.exponent
  let m := if e = 0 then f else 0x800000 + f
  let below := if f = 0 ∧ 1 < e then 1 else 2
  { low := 4 * m - below, middle := 4 * m, high := 4 * m + 2
    scale := (max e 1 : Nat) - 152
    closed := m % 2 = 0 }

namespace Interval

/-- `2 ^ scale / 10 ^ k` as a fraction. -/
def unit (i : Interval) (k : Int) : Nat × Nat :=
  (Nat.pow 2 i.scale.toNat * Nat.pow 10 (-k).toNat,
    Nat.pow 2 (-i.scale).toNat * Nat.pow 10 k.toNat)

/-- Whether the `d`-th point of grid `k` lies in the interval. -/
def contains (i : Interval) (k : Int) (d : Nat) : Bool :=
  let (n, q) := i.unit k
  let p := d * q
  if i.closed then i.low * n ≤ p && p ≤ i.high * n else i.low * n < p && p < i.high * n

/-- The point of grid `k` that is written, if one lies in the interval. -/
def point? (i : Interval) (k : Int) : Option Nat :=
  let (n, q) := i.unit k
  let d := i.middle * n / q
  let above := 2 * (i.middle * n - d * q)
  match i.contains k d, i.contains k (d + 1) with
  | true, false => some d
  | false, true => some (d + 1)
  | true, true => some (if above < q || (above == q && d % 2 == 0) then d else d + 1)
  | false, false => none

def shortest (i : Interval) : Decimal :=
  let grids := (List.range 86).map fun n : Nat => 39 - (n : Int)
  (grids.findSome? fun k => (i.point? k).map (Decimal.mk · k)).getD ⟨0, 0⟩

end Interval

/-- The decimal that a finite number is written as, without its sign. -/
def shortest (s : Single) : Decimal :=
  if s.exponent = 0 ∧ s.fraction = 0 then ⟨0, 0⟩ else s.interval.shortest

end Single

end WireCapture
