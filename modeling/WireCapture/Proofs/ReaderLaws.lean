import Mathlib.Algebra.Group.Nat.Defs
import Mathlib.Tactic.MkIffOfInductiveProp
import WireCapture.Proofs.Consumption
import WireCapture.Proofs.Utf8

/-!
# Laws of the readers

Every primitive reader streams. The readers of words and texts invert the writing
of a word and of a text after its length, and what a reader took stands between the
two cursors.
-/
namespace WireCapture.Word

theorem value_bytes (width n : Nat) : value (bytes width n) = n % 256 ^ width := by
  induction width generalizing n with
  | zero => simp [bytes, value, Nat.mod_one]
  | succ width ih =>
      rw [bytes, value, ih, Nat.pow_succ, Nat.mul_comm (256 ^ width), Nat.mod_mul]
      rfl

theorem value_lt (bs : Bytes) : value bs < 256 ^ bs.length := by
  induction bs with
  | nil => simp [value]
  | cons b bs ih =>
      have hb := b.toNat_lt
      rw [value, List.length_cons, Nat.pow_succ]
      omega

end WireCapture.Word

namespace WireCapture.Reader

variable {α : Type}

theorem reads_iff {r : Reader α} {used : Bytes} {a : α} : Reads r used a ↔
    ∀ pos tail, r ⟨pos, used ++ tail⟩ = .ok a ⟨pos + used.length, tail⟩ := by
  constructor
  · intro h pos tail
    obtain ⟨_, h⟩ := h
    exact h pos tail ()
  · intro h
    exact ⟨fun _ log => log, fun pos tail _ => h pos tail⟩

theorem reads_take {n : Nat} {bs : Bytes} (h : bs.length = n) : Reads (take n) bs bs := by
  rw [reads_iff]
  intro pos tail
  subst h
  rw [take_ok (by simp [Cursor.remaining])]
  simp [Cursor.advance]

theorem starves_take {n : Nat} {bs : Bytes} (h : bs.length < n) : Starves (take n) bs := by
  refine ⟨id, n, bs.length, 0, fun _ => rfl, h, Nat.le_refl _, Nat.zero_le _,
    fun _ log => log, ?_⟩
  intro pos more log hm
  have hl : (bs ++ more).length = bs.length + more.length := List.length_append
  change take n ⟨pos, bs ++ more⟩ = _
  rw [take_error (by change (bs ++ more).length < n; omega), Cursor.remaining, hl]
  rfl

theorem streams_take (n : Nat) : Streams (take n) := by
  intro bs
  by_cases h : n ≤ bs.length
  · have hl : (bs.take n).length = n := by rw [List.length_take]; omega
    refine .inl ⟨bs.take n, bs.drop n, .ok (bs.take n), (List.take_append_drop n bs).symm,
      reads_take hl, ?_, Decides.proper_of_ok _⟩
    intro t ht
    apply starves_take
    rw [List.length_take]
    omega
  · exact .inr (starves_take (Nat.lt_of_not_le h))

theorem streams_word (width : Nat) : Streams (word width) := (streams_take width).map

theorem streams_u8 : Streams u8 := (streams_word 1).map

theorem streams_u16 : Streams u16 := (streams_word 2).map

theorem streams_u32 : Streams u32 := (streams_word 4).map

theorem streams_i32 : Streams i32 := streams_u32.map

theorem streams_single : Streams single := streams_u32.map

theorem reads_word (width n : Nat) (h : n < 256 ^ width) :
    Reads (word width) (Word.bytes width n) n := by
  have hr := (reads_take (Word.length_bytes width n)).map (g := Word.value)
  rw [Word.value_bytes, Nat.mod_eq_of_lt h] at hr
  exact hr

theorem reads_u8 (n : UInt8) : Reads u8 [n] n := by
  have h := (reads_word 1 n.toNat n.toNat_lt).map (g := UInt8.ofNat)
  rw [UInt8.ofNat_toNat, Word.bytes, Word.bytes, UInt8.ofNat_toNat] at h
  exact h

theorem reads_u16 (n : UInt16) : Reads u16 (Word.bytes 2 n.toNat) n := by
  have h := (reads_word 2 n.toNat n.toNat_lt).map (g := UInt16.ofNat)
  rw [UInt16.ofNat_toNat] at h
  exact h

theorem reads_u32 (n : UInt32) : Reads u32 (Word.bytes 4 n.toNat) n := by
  have h := (reads_word 4 n.toNat n.toNat_lt).map (g := UInt32.ofNat)
  rw [UInt32.ofNat_toNat] at h
  exact h

theorem reads_i32 (n : Int32) : Reads i32 (Word.bytes 4 n.toUInt32.toNat) n :=
  (reads_u32 n.toUInt32).map

theorem reads_single (x : Single) : Reads single (Word.bytes 4 x.bits.toNat) x :=
  (reads_u32 x.bits).map

theorem streams_ofExcept {x : Except Fault α}
    (h : ∀ e, x = .error e → e.isUnexpectedEnd = false) : Streams (ofExcept x) := by
  cases x with
  | ok a => exact .pure a
  | error e => exact .throw (h e rfl)

theorem streams_version (what : Versioned) : Streams (version what) :=
  streams_u16.bind fun v => .ite (.throw rfl) (.pure v)

theorem reads_version {what : Versioned} {v : UInt16} (h : v ≤ what.ceiling) :
    Reads (version what) (Word.bytes 2 v.toNat) v := by
  have hn : ¬ what.ceiling < v := UInt16.not_lt.mpr h
  have hr := (reads_u16 v).bind (f := fun v =>
    if what.ceiling < v then throw (.unsupportedVersion what v) else return v)
    (by rw [if_neg hn]; exact .pure v)
  rw [List.append_nil] at hr
  exact hr

theorem streams_gated {r : Reader α} (there : Bool) (h : Streams r) :
    Streams (gated there r) := .ite h.map (.pure none)

theorem reads_gated {r : Reader α} {there : Bool} {bs : Bytes} {a : α}
    (h : there = true → Reads r bs a) :
    Reads (gated there r) (if there then bs else []) (if there then some a else none) := by
  cases there with
  | true => exact (h rfl).map
  | false => exact .pure none

theorem atomic_eq_ok {r : Reader α} {c c' : Cursor} {a : α} :
    atomic r c = .ok a c' ↔ r c = .ok a c' := by
  unfold atomic
  split <;> simp_all

theorem reads_atomic {r : Reader α} {bs : Bytes} {a : α} (h : Reads r bs a) :
    Reads (atomic r) bs a := by
  rw [reads_iff] at h ⊢
  intro pos tail
  rw [atomic, h]

theorem starves_atomic {r : Reader α} {bs : Bytes} (h : Starves r bs) :
    Starves (atomic r) bs := by
  obtain ⟨blame, needed, remaining, skip, hb, hlt, hr, hs, note, h⟩ := h
  refine ⟨blame, needed, remaining, 0, hb, hlt, hr, Nat.zero_le _, note, ?_⟩
  intro pos more log hm
  have hk := h pos more log hm
  change r ⟨pos, bs ++ more⟩ = _ at hk
  change atomic r ⟨pos, bs ++ more⟩ = _
  rw [atomic, hk]
  rfl

/-- What a failing reader gives back it has looked at, so only a reader that fails
for want of bytes may be made atomic. -/
theorem streams_atomic {r : Reader α} (h : Streams r)
    (hr : ∀ c e c', r c = .error e c' → e.isUnexpectedEnd = true) : Streams (atomic r) := by
  intro bs
  rcases h bs with ⟨used, rest, x, rfl, hd⟩ | hs
  · cases x with
    | ok a =>
        refine .inl ⟨used, rest, .ok a, rfl, reads_atomic hd.settles, ?_, Decides.proper_of_ok a⟩
        exact fun t ht => starves_atomic (hd.cut t ht)
    | error e =>
        obtain ⟨note, hs⟩ := hd.settles
        have he := hr _ _ _ (hs 0 rest ())
        have hp : e.isUnexpectedEnd = false := hd.proper e rfl
        rw [hp] at he
        exact absurd he Bool.false_ne_true
  · exact .inr (starves_atomic hs)

theorem take_fault {n : Nat} {c c' : Cursor} {e : Fault} (h : take n c = .error e c') :
    e.isUnexpectedEnd = true := by
  by_cases hn : n ≤ c.remaining
  · rw [take_ok hn] at h
    cases h
  · rw [take_error (Nat.lt_of_not_le hn)] at h
    cases h
    rfl

theorem word_fault {width : Nat} {c c' : Cursor} {e : Fault}
    (h : word width c = .error e c') : e.isUnexpectedEnd = true := by
  cases hk : take width c with
  | ok bs d =>
      rw [word, map_of_ok hk] at h
      cases h
  | error f d =>
      rw [word, map_of_error hk] at h
      cases h
      exact take_fault hk

theorem streams_counted (width size : Nat) : Streams (counted width size) := by
  refine streams_atomic ((streams_word width).bind fun n => streams_take (n * size)) ?_
  intro c e c' h
  rcases bind_eq_error.mp h with h | ⟨n, d, _, h⟩
  · exact word_fault h
  · exact take_fault h

theorem streams_countedText (width : Nat) : Streams (countedText width) :=
  (streams_counted width 1).map

theorem reads_counted {width size n : Nat} {bs : Bytes} (hn : n < 256 ^ width)
    (hb : bs.length = n * size) :
    Reads (counted width size) (Word.bytes width n ++ bs) bs :=
  reads_atomic ((reads_word width n hn).bind (reads_take hb))

end WireCapture.Reader

namespace WireCapture

/-- The first cursor stands before the bytes `used`, the second behind them. -/
structure Cursor.Passes (c : Cursor) (used : Bytes) (c' : Cursor) : Prop where
  rest : c.rest = used ++ c'.rest
  pos : c'.pos = c.pos + used.length

theorem Cursor.Passes.trans {c d e : Cursor} {used more : Bytes} (h : c.Passes used d)
    (k : d.Passes more e) : c.Passes (used ++ more) e := by
  refine ⟨?_, ?_⟩
  · rw [h.rest, k.rest, List.append_assoc]
  · rw [k.pos, h.pos, List.length_append, Nat.add_assoc]

namespace Reader

variable {α : Type} {c c' : Cursor}

theorem passes_of_take {n : Nat} {bs : Bytes} (h : take n c = .ok bs c') :
    bs.length = n ∧ c.Passes bs c' := by
  by_cases hn : n ≤ c.remaining
  · have hl : (c.rest.take n).length = n := List.length_take_of_le hn
    rw [take_ok hn] at h
    cases h
    exact ⟨hl, (List.take_append_drop n c.rest).symm, by rw [hl]; rfl⟩
  · rw [take_error (Nat.lt_of_not_le hn)] at h
    cases h

theorem passes_of_word {width n : Nat} (h : word width c = .ok n c') :
    n < 256 ^ width ∧ c.Passes (Word.bytes width n) c' := by
  obtain ⟨bs, hbs, rfl⟩ := map_eq_ok.mp h
  obtain ⟨rfl, hp⟩ := passes_of_take hbs
  exact ⟨Word.value_lt bs, (Word.bytes_value bs).symm ▸ hp⟩

theorem passes_of_u8 {n : UInt8} (h : u8 c = .ok n c') : c.Passes [n] c' := by
  obtain ⟨m, hm, rfl⟩ := map_eq_ok.mp h
  exact (passes_of_word hm).2

theorem passes_of_u16 {n : UInt16} (h : u16 c = .ok n c') :
    c.Passes (Word.bytes 2 n.toNat) c' := by
  obtain ⟨m, hm, rfl⟩ := map_eq_ok.mp h
  obtain ⟨hlt, hp⟩ := passes_of_word hm
  rwa [UInt16.toNat_ofNat_of_lt' hlt]

theorem passes_of_u32 {n : UInt32} (h : u32 c = .ok n c') :
    c.Passes (Word.bytes 4 n.toNat) c' := by
  obtain ⟨m, hm, rfl⟩ := map_eq_ok.mp h
  obtain ⟨hlt, hp⟩ := passes_of_word hm
  rwa [UInt32.toNat_ofNat_of_lt' hlt]

theorem passes_of_counted {width size : Nat} {bs : Bytes}
    (h : counted width size c = .ok bs c') :
    ∃ n < 256 ^ width, bs.length = n * size ∧ c.Passes (Word.bytes width n ++ bs) c' := by
  obtain ⟨n, d, hn, hbs⟩ := bind_eq_ok.mp (atomic_eq_ok.mp h)
  obtain ⟨hlt, hcount⟩ := passes_of_word hn
  obtain ⟨hl, htake⟩ := passes_of_take hbs
  exact ⟨n, hlt, hl, hcount.trans htake⟩

/-- What a streaming reader took it reads again, wherever it stands. -/
theorem reads_of_ok {r : Reader α} (h : Streams r) {a : α} (hr : r c = .ok a c') :
    ∃ used, c.Passes used c' ∧ Reads r used a := by
  obtain ⟨pos, bs⟩ := c
  rcases h bs with ⟨used, rest, x, rfl, hd⟩ | hs
  · obtain ⟨_, hx⟩ := hd.settles
    have hused := hx pos rest ()
    change r ⟨pos, used ++ rest⟩ = _ at hused
    rw [hr] at hused
    cases x with
    | ok b =>
        cases hused
        exact ⟨used, ⟨rfl, rfl⟩, hd.settles⟩
    | error e => cases hused
  · obtain ⟨blame, needed, remaining, skip, _, hlt, _, _, _, hfail⟩ := hs
    have hnone := hfail pos [] () (Nat.sub_pos_of_lt hlt)
    rw [List.append_nil] at hnone
    change r ⟨pos, bs⟩ = _ at hnone
    rw [hr] at hnone
    cases hnone

end Reader

end WireCapture

namespace WireCapture.Text

/-- A text after its length in bytes, itself of `width` bytes. -/
def counted (width : Nat) (s : String) : Bytes :=
  Word.bytes width (Utf8.encode s).length ++ Utf8.encode s

/-- Texts that can stand after a length of `width` bytes and are not cut there. -/
@[mk_iff]
structure Fits (width : Nat) (s : String) : Prop where
  noNul : '\x00' ∉ s.toList
  short : (Utf8.encode s).length < 256 ^ width

instance (width : Nat) (s : String) : Decidable (Fits width s) :=
  decidable_of_iff _ (fits_iff width s).symm

theorem reads_counted {width : Nat} {s : String} (h : Fits width s) :
    Reads (Reader.countedText width) (counted width s) s := by
  have hr := (Reader.reads_counted h.short (Nat.mul_one _).symm).map (g := Utf8.cString)
  rw [Utf8.cString_encode h.noNul] at hr
  exact hr

end WireCapture.Text
