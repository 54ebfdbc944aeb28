import WireCapture.Fault
import WireCapture.Single
import WireCapture.Text.Utf8
import WireCapture.Text.Utf16

/-!
# Cursors and readers

A cursor is a position in a capture and the bytes after it. A reader takes bytes
from the front, or fails with a fault; also a failure says where the cursor
stands. The primitive readers are atomic: a failure leaves the cursor in place.
-/
namespace WireCapture

structure Cursor where
  pos : Nat
  rest : Bytes
  deriving DecidableEq, Repr

namespace Cursor

def ofBytes (data : Bytes) : Cursor := ⟨0, data⟩

def remaining (c : Cursor) : Nat := c.rest.length

def isEmpty (c : Cursor) : Bool := c.rest.isEmpty

def advance (c : Cursor) (n : Nat) : Cursor := ⟨c.pos + n, c.rest.drop n⟩

end Cursor

abbrev Reader := EStateM Fault Cursor

namespace Reader

/-- The next `n` bytes. -/
def take (n : Nat) : Reader Bytes := fun c =>
  let head := c.rest.take n
  if head.length = n then .ok head (c.advance n)
  else .error (.unexpectedEnd n c.remaining) c

theorem take_ok {n : Nat} {c : Cursor} (h : n ≤ c.remaining) :
    take n c = .ok (c.rest.take n) (c.advance n) := by
  have hl : (c.rest.take n).length = n := by
    rw [List.length_take]; exact Nat.min_eq_left h
  rw [take, if_pos hl]

theorem take_error {n : Nat} {c : Cursor} (h : c.remaining < n) :
    take n c = .error (.unexpectedEnd n c.remaining) c := by
  have hl : (c.rest.take n).length ≠ n := by
    rw [List.length_take]; exact Nat.ne_of_lt (Nat.lt_of_le_of_lt (Nat.min_le_right _ _) h)
  rw [take, if_neg hl]

/-- The next little-endian word of `width` bytes. -/
def word (width : Nat) : Reader Nat := Word.value <$> take width

def u8 : Reader UInt8 := UInt8.ofNat <$> word 1
def u16 : Reader UInt16 := UInt16.ofNat <$> word 2
def u32 : Reader UInt32 := UInt32.ofNat <$> word 4
def i32 : Reader Int32 := UInt32.toInt32 <$> u32
def single : Reader Single := Single.mk <$> u32

def ofExcept {α : Type} : Except Fault α → Reader α
  | .ok a => pure a
  | .error e => throw e

/-- A version, refused above its ceiling. -/
def version (what : Versioned) : Reader UInt16 := do
  let v ← u16
  if what.ceiling < v then throw (.unsupportedVersion what v) else return v

/-- A field that is there only under a condition. -/
def gated {α : Type} (there : Bool) (r : Reader α) : Reader (Option α) :=
  if there then some <$> r else pure none

/-- Undoes what a failing reader consumed. -/
def atomic {α : Type} (r : Reader α) : Reader α := fun c =>
  match r c with
  | .ok a c' => .ok a c'
  | .error e _ => .error e c

/-- A count of `width` bytes, then that many items of `size` bytes. -/
def counted (width size : Nat) : Reader Bytes :=
  atomic do
    let n ← word width
    take (n * size)

/-- A field of `n` bytes holding a text that a NUL byte may end early. -/
def fixedText (n : Nat) : Reader String := Text.Utf8.cString <$> take n

/-- A text after its length in bytes, itself of `width` bytes. -/
def countedText (width : Nat) : Reader String := Text.Utf8.cString <$> counted width 1

/-- A text in UTF-16 after its 16-bit count of units. -/
def utf16 : Reader String := do
  let bs ← counted 2 2
  return Text.Utf16.text (Word.split 2 (bs.length / 2) bs)

end Reader

end WireCapture
