import Mathlib.Algebra.Group.Int.Defs
import WireCapture.Reader.Field
import WireCapture.Proofs.ReaderLaws

/-!
# Sequences of fields

What reading one field after the other does to a cursor. A field asks for a number of
bytes, or for a count and the items that it counts. Where these are there, the field
takes them and its value comes from them alone; where they are not, the cursor stays in
place and the fault names the first requirement that is not met. `Step` says so for one
field. After any fields the cursor stands in the data it started in, and a field that
failed might as well not have been asked for.
-/
namespace WireCapture

/-- The cursor stands at its position in the data. -/
structure Cursor.Over (data : Bytes) (c : Cursor) : Prop where
  total : c.pos + c.remaining = data.length
  rest : c.rest = data.drop c.pos

namespace Cursor

variable {data : Bytes} {c : Cursor} {n : Nat}

theorem over_ofBytes (data : Bytes) : Over data (.ofBytes data) := ⟨Nat.zero_add _, rfl⟩

theorem Over.advance (h : Over data c) (hn : n ≤ c.remaining) : Over data (c.advance n) := by
  constructor
  · have htotal := h.total
    simp only [Cursor.advance, remaining, List.length_drop] at hn htotal ⊢
    omega
  · change c.rest.drop n = data.drop (c.pos + n)
    rw [h.rest, List.drop_drop]

theorem passes_advance (hn : n ≤ c.remaining) : c.Passes (c.rest.take n) (c.advance n) := by
  refine ⟨(List.take_append_drop n c.rest).symm, ?_⟩
  rw [List.length_take_of_le hn]
  rfl

end Cursor

namespace Field

/-- So many bytes, or a count of `width` bytes and then that many items of `size` bytes. -/
inductive Extent
  | fixed (width : Nat)
  | counted (width size : Nat)
  deriving DecidableEq, Repr

namespace Extent

/-- The width of a field at the front of some bytes. A count that is cut off is wider than
they are by itself. -/
def need : Extent → Bytes → Nat
  | .fixed width, _ => width
  | .counted width size, bs => width + Word.value (bs.take width) * size

/-- The first requirement that bytes shorter than the need leave unmet. -/
def shortfall : Extent → Bytes → Fault
  | .fixed width, bs => .unexpectedEnd width bs.length
  | .counted width size, bs =>
      if bs.length < width then .unexpectedEnd width bs.length
      else .unexpectedEnd (Word.value (bs.take width) * size) (bs.length - width)

/-- The bytes of a field without its count. -/
def payload : Extent → Bytes → Bytes
  | .fixed _, used => used
  | .counted width _, used => used.drop width

def reader : Extent → Reader Bytes
  | .fixed width => Reader.take width
  | .counted width size => Reader.counted width size

variable {x : Extent} {c : Cursor}

theorem reader_of_enough (h : x.need c.rest ≤ c.remaining) :
    x.reader c =
      .ok (x.payload (c.rest.take (x.need c.rest))) (c.advance (x.need c.rest)) := by
  cases x with
  | fixed width => exact Reader.take_ok h
  | counted width size =>
      simp only [need] at h ⊢
      have hcount : Reader.word width c = .ok (Word.value (c.rest.take width)) (c.advance width) :=
        map_of_ok (Reader.take_ok (by omega))
      have hitems : Word.value (c.rest.take width) * size ≤ (c.advance width).remaining := by
        simp only [Cursor.advance, Cursor.remaining, List.length_drop] at h ⊢
        omega
      refine Reader.atomic_eq_ok.mpr ?_
      rw [bind_of_ok hcount, Reader.take_ok hitems]
      simp [payload, Cursor.advance, List.drop_take, Nat.add_assoc]

theorem reader_of_short (h : c.remaining < x.need c.rest) :
    x.reader c = .error (x.shortfall c.rest) c := by
  cases x with
  | fixed width => exact Reader.take_error h
  | counted width size =>
      simp only [need] at h
      change Reader.atomic _ c = _
      by_cases hwidth : c.remaining < width
      · have hcount : Reader.word width c = .error (.unexpectedEnd width c.remaining) c :=
          map_of_error (Reader.take_error hwidth)
        have hfault : shortfall (.counted width size) c.rest =
            .unexpectedEnd width c.remaining := if_pos hwidth
        rw [Reader.atomic, bind_of_error hcount, hfault]
      · have hcount : Reader.word width c =
            .ok (Word.value (c.rest.take width)) (c.advance width) :=
          map_of_ok (Reader.take_ok (Nat.le_of_not_lt hwidth))
        have hleft : (c.advance width).remaining = c.remaining - width := List.length_drop
        have hitems : (c.advance width).remaining < Word.value (c.rest.take width) * size := by
          omega
        have hfault : shortfall (.counted width size) c.rest =
            .unexpectedEnd (Word.value (c.rest.take width) * size) (c.remaining - width) :=
          if_neg hwidth
        rw [Reader.atomic, bind_of_ok hcount, Reader.take_error hitems, hleft, hfault]

end Extent

def extent : Field → Extent
  | .u8 | .i8 => .fixed 1
  | .u16 | .i16 => .fixed 2
  | .u24 => .fixed 3
  | .u32 | .i32 | .single => .fixed 4
  | .bytes n | .fixedText n => .fixed n
  | .text8 => .counted 1 1
  | .text16 => .counted 2 1
  | .text32 => .counted 4 1
  | .utf16 => .counted 2 2

/-- The value of a field, from its bytes without the count. -/
def parse : Field → Bytes → Value
  | .u8, bs | .u16, bs | .u24, bs | .u32, bs => .number (Word.value bs)
  | .i8, bs => .number (signed 1 (Word.value bs))
  | .i16, bs => .number (signed 2 (Word.value bs))
  | .i32, bs => .number (signed 4 (Word.value bs))
  | .single, bs => .single ⟨UInt32.ofNat (Word.value bs)⟩
  | .bytes _, bs => .bytes bs
  | .fixedText _, bs | .text8, bs | .text16, bs | .text32, bs => .text (Text.Utf8.cString bs)
  | .utf16, bs => .text (Text.Utf16.text (Word.split 2 (bs.length / 2) bs))

theorem reader_eq (f : Field) : f.reader = f.parse <$> f.extent.reader := by
  cases f <;>
    simp only [reader, extent, Extent.reader, Reader.single, Reader.u32, Reader.word,
      Reader.fixedText, Reader.countedText, Reader.utf16, bind_pure_comp, Functor.map_map] <;>
    rfl

def isSigned : Field → Bool
  | .i8 | .i16 | .i32 => true
  | _ => false

/-- The integer of a little-endian word, in two's complement if the field is signed. -/
structure Denotes (f : Field) (bs : Bytes) (n : Int) : Prop where
  residue : n % 256 ^ bs.length = Word.value bs
  low : if f.isSigned then -256 ^ bs.length ≤ 2 * n else 0 ≤ n
  high : if f.isSigned then 2 * n < 256 ^ bs.length else n < 256 ^ bs.length

section Denotes

variable {f : Field} {bs : Bytes} {n : Int}

theorem value_emod (bs : Bytes) :
    (Word.value bs : Int) % 256 ^ bs.length = Word.value bs := by
  have hlt := Int.ofNat_lt.mpr (Word.value_lt bs)
  rw [Int.natCast_pow] at hlt
  exact Int.emod_eq_of_lt (Int.natCast_nonneg _) hlt

theorem signed_emod (bs : Bytes) :
    signed bs.length (Word.value bs) % 256 ^ bs.length = Word.value bs := by
  have hpow : ((Nat.pow 256 bs.length : Nat) : Int) = 256 ^ bs.length := Int.natCast_pow 256 _
  rw [signed, ← hpow, Int.bmod_emod, hpow, value_emod]

theorem signed_bounds (bs : Bytes) :
    -256 ^ bs.length ≤ 2 * signed bs.length (Word.value bs) ∧
      2 * signed bs.length (Word.value bs) < 256 ^ bs.length := by
  have hpow : ((Nat.pow 256 bs.length : Nat) : Int) = 256 ^ bs.length := Int.natCast_pow 256 _
  have hlt := Int.ofNat_lt.mpr (Word.value_lt bs)
  rw [Int.natCast_pow] at hlt
  rw [signed, Int.bmod_def, hpow, value_emod]
  generalize (256 : Int) ^ bs.length = bound at hlt ⊢
  split <;> omega

theorem denotes_value (h : f.isSigned = false) : f.Denotes bs (Word.value bs) := by
  have hlt := Int.ofNat_lt.mpr (Word.value_lt bs)
  rw [Int.natCast_pow] at hlt
  refine ⟨value_emod bs, ?_, ?_⟩
  · rw [h]
    exact Int.natCast_nonneg _
  · rw [h]
    exact hlt

theorem denotes_signed {width : Nat} (hwidth : bs.length = width) (h : f.isSigned = true) :
    f.Denotes bs (signed width (Word.value bs)) := by
  subst hwidth
  obtain ⟨hlow, hhigh⟩ := signed_bounds bs
  refine ⟨signed_emod bs, ?_, ?_⟩
  · rw [h]
    exact hlow
  · rw [h]
    exact hhigh

/-- A field that holds an integer holds the one in its bytes. -/
theorem denotes_of_parse {rest : Bytes} (hlength : bs.length = f.extent.need rest)
    (h : f.parse (f.extent.payload bs) = .number n) : f.Denotes bs n := by
  cases f with
  | u8 | u16 | u24 | u32 =>
      cases h
      exact denotes_value rfl
  | i8 | i16 | i32 =>
      rw [← Value.number.inj h]
      exact denotes_signed hlength rfl
  | _ => cases h

end Denotes

/-- The ways in which reading a field ends. -/
inductive Step (f : Field) (c : Cursor) : Except Fault Value → Cursor → Prop
  | read : f.extent.need c.rest ≤ c.remaining →
      Step f c (.ok (f.parse (f.extent.payload (c.rest.take (f.extent.need c.rest)))))
        (c.advance (f.extent.need c.rest))
  | short : c.remaining < f.extent.need c.rest → Step f c (.error (f.extent.shortfall c.rest)) c

theorem step_readOne (f : Field) (c : Cursor) : Step f c (f.readOne c).1 (f.readOne c).2 := by
  by_cases h : f.extent.need c.rest ≤ c.remaining
  · have hread : f.reader c = .ok (f.parse (f.extent.payload (c.rest.take (f.extent.need c.rest))))
        (c.advance (f.extent.need c.rest)) := by
      rw [reader_eq]
      exact map_of_ok (Extent.reader_of_enough h)
    rw [readOne, hread]
    exact .read h
  · have hread : f.reader c = .error (f.extent.shortfall c.rest) c := by
      rw [reader_eq]
      exact map_of_error (Extent.reader_of_short (Nat.lt_of_not_le h))
    rw [readOne, hread]
    exact .short (Nat.lt_of_not_le h)

theorem streams_reader (f : Field) : Streams f.reader := by
  rw [reader_eq]
  refine Streams.map ?_
  cases f.extent with
  | fixed width => exact Reader.streams_take width
  | counted width size => exact Reader.streams_counted width size

section Step

variable {f : Field} {c c' : Cursor} {data : Bytes} {a : Except Fault Value} {v : Value}
  {e : Fault}

theorem Step.over (h : Step f c a c') (hc : c.Over data) : c'.Over data := by
  cases h with
  | read hneed => exact hc.advance hneed
  | short _ => exact hc

theorem Step.error_iff (h : Step f c a c') :
    (∃ e, a = .error e) ↔ c.remaining < f.extent.need c.rest := by
  cases h with
  | read hneed => simp [Nat.not_lt_of_le hneed]
  | short hneed => simp [hneed]

theorem Step.of_ok (h : Step f c (.ok v) c') : ∃ used, c.Passes used c' ∧
    used.length = f.extent.need c.rest ∧ v = f.parse (f.extent.payload used) := by
  cases h with
  | read hneed =>
      exact ⟨_, Cursor.passes_advance hneed, List.length_take_of_le hneed, rfl⟩

theorem Step.of_error (h : Step f c (.error e) c') :
    e = f.extent.shortfall c.rest ∧ c' = c := by
  cases h with
  | short _ => exact ⟨rfl, rfl⟩

theorem reader_of_readOne (h : (f.readOne c).1 = .ok v) : f.reader c = .ok v (f.readOne c).2 := by
  unfold readOne at h ⊢
  cases hread : f.reader c with
  | ok w d =>
      rw [hread] at h
      cases h
      rfl
  | error e d =>
      rw [hread] at h
      cases h

end Step

theorem readEach_append (fs gs : List Field) (c : Cursor) :
    readEach (fs ++ gs) c =
      ((readEach fs c).1 ++ (readEach gs (readEach fs c).2).1,
        (readEach gs (readEach fs c).2).2) := by
  induction fs generalizing c with
  | nil => rfl
  | cons f fs ih => simp only [List.cons_append, readEach, ih]

theorem over_readEach {data : Bytes} (fs : List Field) {c : Cursor} (h : c.Over data) :
    (readEach fs c).2.Over data := by
  induction fs generalizing c with
  | nil => exact h
  | cons f fs ih => exact ih ((step_readOne f c).over h)

/-- Any field among others takes its width or nothing. It fails exactly if fewer bytes
are left than it needs, with the first requirement that they do not meet, and then the
others are read as if it had not been there. -/
theorem readEach_contract (data : Bytes) (before : List Field) (f : Field)
    (later : List Field) :
    let start := Cursor.ofBytes data
    let c := (readEach before start).2
    let answer := (f.readOne c).1
    let c' := (f.readOne c).2
    readEach (before ++ f :: later) start =
      ((readEach before start).1 ++ answer :: (readEach later c').1, (readEach later c').2) ∧
    c.Over data ∧ c'.Over data ∧
    ((∃ e, answer = .error e) ↔ c.remaining < f.extent.need c.rest) ∧
    (∀ v, answer = .ok v → ∃ used, c.Passes used c' ∧ used.length = f.extent.need c.rest ∧
      v = f.parse (f.extent.payload used) ∧ (∀ n, v = .number n → f.Denotes used n) ∧
      Reads f.reader used v) ∧
    ∀ e, answer = .error e → e = f.extent.shortfall c.rest ∧ c' = c ∧
      readEach (before ++ later) start =
        ((readEach before start).1 ++ (readEach later c').1, (readEach later c').2) := by
  intro start c answer c'
  have hstep : Step f c answer c' := step_readOne f c
  have hover : c.Over data := over_readEach before (Cursor.over_ofBytes data)
  refine ⟨readEach_append before (f :: later) start, hover, hstep.over hover, hstep.error_iff,
    ?_, ?_⟩
  · intro v hv
    rw [hv] at hstep
    obtain ⟨used, hpasses, hlength, hparse⟩ := hstep.of_ok
    obtain ⟨used', hpasses', hreads⟩ :=
      Reader.reads_of_ok (streams_reader f) (reader_of_readOne hv)
    obtain rfl : used = used' :=
      List.append_cancel_right (hpasses.rest.symm.trans hpasses'.rest)
    exact ⟨used, hpasses, hlength, hparse,
      fun n hn => denotes_of_parse hlength (hparse.symm.trans hn), hreads⟩
  · intro e he
    rw [he] at hstep
    obtain ⟨hfault, hplace⟩ := hstep.of_error
    refine ⟨hfault, hplace, ?_⟩
    rw [hplace]
    exact readEach_append before later start

/-- A text whose count is too high, and then a number in the same place. -/
theorem readEach_contract_rewound :
    readEach [.text8, .i16] (.ofBytes [5, 255, 98]) =
      ([.error (.unexpectedEnd 5 2), .ok (.number (-251))], ⟨2, [98]⟩) ∧
    readEach [.i16] (.ofBytes [5, 255, 98]) = ([.ok (.number (-251))], ⟨2, [98]⟩) ∧
    ∃ used, used.length = 2 ∧ Denotes .i16 used (-251) ∧
      Reads (reader .i16) used (.number (-251)) := by
  have hvalue : signed 2 65285 = -251 := by decide
  rw [← hvalue]
  obtain ⟨-, -, -, -, -, herror⟩ := readEach_contract [5, 255, 98] [] .text8 [.i16]
  obtain ⟨-, -, hwithout⟩ := herror (.unexpectedEnd 5 2) rfl
  obtain ⟨-, -, -, -, hok, -⟩ := readEach_contract [5, 255, 98] [.text8] .i16 []
  obtain ⟨used, -, hlength, -, hdenotes, hreads⟩ := hok (.number (signed 2 65285)) rfl
  exact ⟨rfl, hwithout, used, hlength, hdenotes _ rfl, hreads⟩

end Field

end WireCapture
