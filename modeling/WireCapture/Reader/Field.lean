import WireCapture.Reader

/-!
# Fields

The shapes of single fields and the values they hold, so that a sequence of reads
is itself a value. Fields are read one after the other; a field that is missing
does not stop the ones after it.
-/
namespace WireCapture

inductive Field
  | u8 | i8 | u16 | i16 | u24 | u32 | i32
  | single
  | bytes (n : Nat)
  | fixedText (n : Nat)
  | text8 | text16 | text32
  | utf16
  deriving DecidableEq, Repr

namespace Field

inductive Value
  | number (n : Int)
  | single (x : Single)
  | bytes (bs : Bytes)
  | text (s : String)
  deriving DecidableEq, Repr

/-- A word of `width` bytes in two's complement. -/
def signed (width n : Nat) : Int := Int.bmod n (Nat.pow 256 width)

def reader : Field → Reader Value
  | .u8 => (fun n => .number n) <$> Reader.word 1
  | .i8 => (fun n => .number (signed 1 n)) <$> Reader.word 1
  | .u16 => (fun n => .number n) <$> Reader.word 2
  | .i16 => (fun n => .number (signed 2 n)) <$> Reader.word 2
  | .u24 => (fun n => .number n) <$> Reader.word 3
  | .u32 => (fun n => .number n) <$> Reader.word 4
  | .i32 => (fun n => .number (signed 4 n)) <$> Reader.word 4
  | .single => .single <$> Reader.single
  | .bytes n => .bytes <$> Reader.take n
  | .fixedText n => .text <$> Reader.fixedText n
  | .text8 => .text <$> Reader.countedText 1
  | .text16 => .text <$> Reader.countedText 2
  | .text32 => .text <$> Reader.countedText 4
  | .utf16 => .text <$> Reader.utf16

/-- The value of a field or its fault, and the cursor after it. -/
def readOne (f : Field) (c : Cursor) : Except Fault Value × Cursor :=
  match f.reader c with
  | .ok v c' => (.ok v, c')
  | .error e c' => (.error e, c')

def readEach : List Field → Cursor → List (Except Fault Value) × Cursor
  | [], c => ([], c)
  | f :: fs, c =>
      let (v, c) := f.readOne c
      let (vs, c) := readEach fs c
      (v :: vs, c)

end Field

end WireCapture
