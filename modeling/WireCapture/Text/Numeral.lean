/-!
# Numerals

Natural numbers below a bound, written in digits after at most one plus sign.
-/
namespace WireCapture.Text.Numeral

def digit? (base : Nat) (c : Char) : Option Nat :=
  let n := c.toNat
  let d? :=
    if '0'.toNat ≤ n && n ≤ '9'.toNat then some (n - '0'.toNat)
    else if 'a'.toNat ≤ n && n ≤ 'z'.toNat then some (n - 'a'.toNat + 10)
    else if 'A'.toNat ≤ n && n ≤ 'Z'.toNat then some (n - 'A'.toNat + 10)
    else none
  d?.filter (· < base)

/-- The number that a run of digits denotes. -/
def value? (base : Nat) (cs : List Char) : Option Nat :=
  cs.foldlM (fun acc c => (digit? base c).map (base * acc + ·)) 0

/-- A number that does not reach the bound. -/
def below? (bound n : Nat) : Option Nat := if n < bound then some n else none

/-- A number with one digit more. Neither the product nor the sum may reach the bound. -/
def push? (base bound n : Nat) (c : Char) : Option Nat := do
  let product ← below? bound (base * n)
  let d ← digit? base c
  below? bound (product + d)

def unsigned : List Char → List Char
  | '+' :: cs => cs
  | cs => cs

/-- A numeral in some base for a number below `bound`. -/
def parse? (base bound : Nat) (cs : List Char) : Option Nat :=
  match unsigned cs with
  | [] => none
  | ds => ds.foldlM (push? base bound) 0

def decimal? (bound : Nat) (cs : List Char) : Option Nat := parse? 10 bound cs

/-- A byte in decimal, or in hexadecimal after `0x` or `0X`. -/
def byte? (cs : List Char) : Option UInt8 :=
  let n? := match cs with
    | '0' :: 'x' :: ds => parse? 16 256 ds
    | '0' :: 'X' :: ds => parse? 16 256 ds
    | ds => decimal? 256 ds
  n?.map UInt8.ofNat

/-- Two lower-case hexadecimal digits. -/
def hexByte (b : UInt8) : List Char :=
  [Nat.digitChar (b.toNat / 16), Nat.digitChar (b.toNat % 16)]

end WireCapture.Text.Numeral
