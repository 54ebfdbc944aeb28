/-!
# Little-endian words

A word of `width` bytes stands for the number whose base-256 digits they are,
least significant first. Writing and reading a word undo each other.
-/
namespace WireCapture

abbrev Bytes := List UInt8

namespace Word

/-- The number that little-endian bytes stand for. -/
def value : Bytes → Nat
  | [] => 0
  | b :: bs => b.toNat + 256 * value bs

/-- The lowest `width` bytes of a number. -/
def bytes : (width n : Nat) → Bytes
  | 0, _ => []
  | width + 1, n => UInt8.ofNat n :: bytes width (n / 256)

theorem length_bytes (width n : Nat) : (bytes width n).length = width := by
  induction width generalizing n with
  | zero => rfl
  | succ width ih => simp [bytes, ih]

theorem bytes_value (bs : Bytes) : bytes bs.length (value bs) = bs := by
  induction bs with
  | nil => rfl
  | cons b bs ih =>
      have hb := b.toNat_lt
      have hq : (b.toNat + 256 * value bs) / 256 = value bs := by omega
      rw [List.length_cons, bytes, value, hq, ih]
      congr 1
      apply UInt8.toNat_inj.mp
      rw [UInt8.toNat_ofNat']
      omega

/-- `count` consecutive words of `width` bytes each. -/
def split (width count : Nat) (bs : Bytes) : List Nat := go count bs []
where
  go : Nat → Bytes → List Nat → List Nat
    | 0, _, done => done.reverse
    | count + 1, bs, done => go count (bs.drop width) (value (bs.take width) :: done)

theorem split_go (width count : Nat) (bs : Bytes) (done : List Nat) :
    split.go width count bs done = done.reverse ++ split width count bs := by
  induction count generalizing bs done with
  | zero => simp [split, split.go]
  | succ count ih => rw [split, split.go, split.go, ih, ih _ [_]]; simp

theorem split_zero (width : Nat) (bs : Bytes) : split width 0 bs = [] := rfl

theorem split_succ (width count : Nat) (bs : Bytes) :
    split width (count + 1) bs =
      value (bs.take width) :: split width count (bs.drop width) := by
  rw [split, split.go, split_go]; rfl

end Word

end WireCapture
