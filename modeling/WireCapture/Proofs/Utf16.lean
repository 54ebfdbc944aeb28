import WireCapture.Proofs.ReaderLaws
import WireCapture.Proofs.Utf8Pieces

/-!
# UTF-16 text comes back

What code units stand for is said without the decoder: units are cut into those of
characters and into surrogates without a partner, each of which stands for U+FFFD. A high
surrogate is only cut off alone where no low one follows, so there is one way to cut, and
decoding is it. The units of a text stand for that text.
-/
namespace WireCapture

namespace Text.Utf16

/-- The units of a character: two surrogates from U+10000 on, ten bits of the code point
above U+10000 in each. -/
def encodeChar (c : Char) : List UInt16 :=
  if c.toNat < 0x10000 then [UInt16.ofNat c.toNat]
  else [UInt16.ofNat (0xD800 + (c.toNat - 0x10000) / 0x400),
    UInt16.ofNat (0xDC00 + (c.toNat - 0x10000) % 0x400)]

def encode (s : String) : List UInt16 := s.toList.flatMap encodeChar

/-- Units in little-endian order. -/
def bytes (units : List UInt16) : Bytes := units.flatMap fun u => Word.bytes 2 u.toNat

/-- The characters that units stand for. -/
inductive Denotes : List UInt16 → List Char → Prop
  | nil : Denotes [] []
  | char (c : Char) {units : List UInt16} {cs : List Char} :
      Denotes units cs → Denotes (encodeChar c ++ units) (c :: cs)
  | loneHigh {u : UInt16} {units : List UInt16} {cs : List Char} : isHigh u.toNat = true →
      (∀ v ∈ units.head?, isLow v.toNat = false) → Denotes units cs →
      Denotes (u :: units) ('\uFFFD' :: cs)
  | loneLow {u : UInt16} {units : List UInt16} {cs : List Char} : isLow u.toNat = true →
      Denotes units cs → Denotes (u :: units) ('\uFFFD' :: cs)

theorem isHigh_iff (n : Nat) : isHigh n = true ↔ 0xD800 ≤ n ∧ n < 0xDC00 := by
  simp [isHigh]

theorem isLow_iff (n : Nat) : isLow n = true ↔ 0xDC00 ≤ n ∧ n < 0xE000 := by
  simp [isLow]

theorem piece_plain {u : Nat} (hhigh : isHigh u = false) (hlow : isLow u = false)
    (rest : List Nat) : piece u rest = (Char.ofNat u, rest) := by
  simp [piece, hhigh, hlow]

theorem piece_pair {u v : Nat} (hu : isHigh u = true) (hv : isLow v = true) (rest : List Nat) :
    piece u (v :: rest) = (pair u v, rest) := by
  simp [piece, hu, hv]

theorem piece_loneHigh {u : Nat} {rest : List Nat} (hu : isHigh u = true)
    (hrest : ∀ v ∈ rest.head?, isLow v = false) : piece u rest = ('\uFFFD', rest) := by
  cases rest with
  | nil => simp [piece, hu]
  | cons v rest => simp [piece, hu, hrest v rfl]

theorem piece_loneLow {u : Nat} (hu : isLow u = true) (rest : List Nat) :
    piece u rest = ('\uFFFD', rest) := by
  have hhigh : isHigh u = false := by
    rw [isLow_iff] at hu
    rw [Bool.eq_false_iff, ne_eq, isHigh_iff]
    omega
  simp [piece, hhigh, hu]

/-- The units of a character are taken as one piece, in front of any others. -/
theorem decode_encodeChar_append (c : Char) (rest : List Nat) :
    decode ((encodeChar c).map UInt16.toNat ++ rest) = c :: decode rest := by
  have hv := Utf8.toNat_valid c
  unfold encodeChar
  split
  · have hhigh : isHigh c.toNat = false := by
      rw [Bool.eq_false_iff, ne_eq, isHigh_iff]
      omega
    have hlow : isLow c.toNat = false := by
      rw [Bool.eq_false_iff, ne_eq, isLow_iff]
      omega
    rw [List.map_singleton, UInt16.toNat_ofNat_of_lt' (by change _ < 65536; omega),
      List.singleton_append, decode_cons, piece_plain hhigh hlow, Char.ofNat_toNat]
  · have hu : isHigh (0xD800 + (c.toNat - 0x10000) / 0x400) = true := by
      rw [isHigh_iff]
      omega
    have hl : isLow (0xDC00 + (c.toNat - 0x10000) % 0x400) = true := by
      rw [isLow_iff]
      omega
    have hpair : pair (0xD800 + (c.toNat - 0x10000) / 0x400)
        (0xDC00 + (c.toNat - 0x10000) % 0x400) = c := by
      have hn : 0x10000 + (0xD800 + (c.toNat - 0x10000) / 0x400 - 0xD800) * 0x400 +
          (0xDC00 + (c.toNat - 0x10000) % 0x400 - 0xDC00) = c.toNat := by omega
      rw [pair, hn, Char.ofNat_toNat]
    rw [List.map_cons, List.map_singleton, UInt16.toNat_ofNat_of_lt' (by change _ < 65536; omega),
      UInt16.toNat_ofNat_of_lt' (by change _ < 65536; omega), List.cons_append,
      List.singleton_append, decode_cons, piece_pair hu hl, hpair]

theorem encodeChar_plain {u : UInt16} (hhigh : isHigh u.toNat = false)
    (hlow : isLow u.toNat = false) : encodeChar (Char.ofNat u.toNat) = [u] := by
  have hlt := u.toNat_lt
  rw [Bool.eq_false_iff, ne_eq, isHigh_iff] at hhigh
  rw [Bool.eq_false_iff, ne_eq, isLow_iff] at hlow
  have hvalid : u.toNat.isValidChar := by
    change _ < _ ∨ _ < _ ∧ _ < _
    omega
  rw [encodeChar, Utf8.toNat_ofNat_of_valid hvalid, if_pos (by omega), UInt16.ofNat_toNat]

theorem encodeChar_pair {u v : UInt16} (hu : isHigh u.toNat = true) (hv : isLow v.toNat = true) :
    encodeChar (pair u.toNat v.toNat) = [u, v] := by
  rw [isHigh_iff] at hu
  rw [isLow_iff] at hv
  have hvalid : (0x10000 + (u.toNat - 0xD800) * 0x400 + (v.toNat - 0xDC00)).isValidChar := by
    change _ < _ ∨ _ < _ ∧ _ < _
    omega
  have hhigh : 0xD800 + (0x10000 + (u.toNat - 0xD800) * 0x400 + (v.toNat - 0xDC00) - 0x10000) /
      0x400 = u.toNat := by omega
  have hlow : 0xDC00 + (0x10000 + (u.toNat - 0xD800) * 0x400 + (v.toNat - 0xDC00) - 0x10000) %
      0x400 = v.toNat := by omega
  rw [encodeChar, pair, Utf8.toNat_ofNat_of_valid hvalid, if_neg (by omega), hhigh, hlow,
    UInt16.ofNat_toNat, UInt16.ofNat_toNat]

theorem Denotes.decode {units : List UInt16} {cs : List Char} (h : Denotes units cs) :
    decode (units.map UInt16.toNat) = cs := by
  induction h with
  | nil => exact decode_nil
  | char c _ ih => rw [List.map_append, decode_encodeChar_append, ih]
  | @loneHigh u units cs hu hnext _ ih =>
      have hrest : ∀ v ∈ (units.map UInt16.toNat).head?, isLow v = false := by
        rw [List.head?_map]
        intro v hv
        obtain ⟨w, hw, rfl⟩ := Option.map_eq_some_iff.mp hv
        exact hnext w hw
      rw [List.map_cons, decode_cons, piece_loneHigh hu hrest, ih]
  | loneLow hu _ ih => rw [List.map_cons, decode_cons, piece_loneLow hu, ih]

/-- All units stand for something. A pair takes two of them, so the induction is on
their number. -/
theorem exists_denotes (units : List UInt16) : ∃ cs, Denotes units cs := by
  generalize hn : units.length = n
  induction n using Nat.strongRecOn generalizing units with
  | ind n ih =>
      subst hn
      cases units with
      | nil => exact ⟨[], .nil⟩
      | cons u rest =>
          obtain ⟨cs, hcs⟩ := ih _ (Nat.lt_succ_self rest.length) rest rfl
          by_cases hlow : isLow u.toNat = true
          · exact ⟨_, .loneLow hlow hcs⟩
          · by_cases hhigh : isHigh u.toNat = true
            · by_cases hnext : ∀ v ∈ rest.head?, isLow v.toNat = false
              · exact ⟨_, .loneHigh hhigh hnext hcs⟩
              · cases rest with
                | nil => simp at hnext
                | cons v rest =>
                    have hv : isLow v.toNat = true := by simpa using hnext
                    have hlt : rest.length < (u :: v :: rest).length := by
                      simp only [List.length_cons]
                      omega
                    obtain ⟨ds, hds⟩ := ih rest.length hlt rest rfl
                    have hpair := Denotes.char (pair u.toNat v.toNat) hds
                    rw [encodeChar_pair hhigh hv] at hpair
                    exact ⟨_, hpair⟩
            · have hplain := Denotes.char (Char.ofNat u.toNat) hcs
              rw [encodeChar_plain (Bool.eq_false_iff.mpr hhigh) (Bool.eq_false_iff.mpr hlow)]
                at hplain
              exact ⟨_, hplain⟩

/-- Decoding finds what units stand for, and nothing else. -/
theorem denotes_iff {units : List UInt16} {cs : List Char} :
    Denotes units cs ↔ decode (units.map UInt16.toNat) = cs := by
  constructor
  · exact Denotes.decode
  · rintro rfl
    obtain ⟨cs, h⟩ := exists_denotes units
    rwa [h.decode]

theorem denotes_encode (s : String) : Denotes (encode s) s.toList := by
  unfold encode
  induction s.toList with
  | nil => exact .nil
  | cons c cs ih => exact .char c ih

theorem length_bytes (units : List UInt16) : (bytes units).length = units.length * 2 := by
  unfold bytes
  induction units with
  | nil => rfl
  | cons u units ih =>
      rw [List.flatMap_cons, List.length_append, Word.length_bytes, ih, List.length_cons,
        Nat.add_one_mul, Nat.add_comm]

theorem split_bytes (units : List UInt16) :
    Word.split 2 units.length (bytes units) = units.map UInt16.toNat := by
  unfold bytes
  induction units with
  | nil => rfl
  | cons u units ih =>
      have hword : (Word.bytes 2 u.toNat).length = 2 := Word.length_bytes 2 u.toNat
      have hvalue : Word.value (Word.bytes 2 u.toNat) = u.toNat := by
        rw [Word.value_bytes]
        exact Nat.mod_eq_of_lt u.toNat_lt
      rw [List.length_cons, Word.split_succ, List.flatMap_cons, List.take_left' hword,
        List.drop_left' hword, hvalue, ih, List.map_cons]

theorem takeWhile_toNat (units : List UInt16) :
    (units.map UInt16.toNat).takeWhile (· != 0) =
      (units.takeWhile (· != 0)).map UInt16.toNat := by
  have hzero : (· != 0) ∘ UInt16.toNat = fun u : UInt16 => u != 0 := by
    funext u
    rw [Function.comp_apply, Bool.eq_iff_iff, bne_iff_ne, bne_iff_ne, ne_eq, ne_eq,
      ← UInt16.toNat_inj]
    rfl
  rw [List.takeWhile_map, hzero]

theorem utf16_units {units : List UInt16} (h : units.length < 65536) (pos : Nat)
    (suffix : Bytes) :
    Reader.utf16 ⟨pos, Word.bytes 2 units.length ++ bytes units ++ suffix⟩ =
      .ok (text (units.map UInt16.toNat)) ⟨pos + (2 + 2 * units.length), suffix⟩ := by
  have hcount : (bytes units).length / 2 = units.length := by
    rw [length_bytes, Nat.mul_div_cancel _ Nat.two_pos]
  have hreads : Reads Reader.utf16 (Word.bytes 2 units.length ++ bytes units)
      (text (units.map UInt16.toNat)) := by
    refine (Reader.reads_counted h (length_bytes units)).bind_pure ?_
    rw [hcount, split_bytes]
  have hread := Reader.reads_iff.mp hreads pos suffix
  rwa [List.length_append, Word.length_bytes, length_bytes, Nat.mul_comm] at hread

/-- Units that begin with a text, which ends with them or in front of a zero unit. -/
inductive Begins (s : String) : List UInt16 → Prop
  | whole : Begins s (encode s)
  | cut (more : List UInt16) : Begins s (encode s ++ 0 :: more)

theorem eq_of_zero_mem_encodeChar {c : Char} (h : 0 ∈ encodeChar c) : c = '\x00' := by
  have hv := Utf8.toNat_valid c
  apply Char.toNat_inj.mp
  unfold encodeChar at h
  split at h
  · rw [List.mem_singleton, ← UInt16.toNat_inj,
      UInt16.toNat_ofNat_of_lt' (by change _ < 65536; omega)] at h
    exact h.symm
  · exfalso
    simp only [List.mem_cons, List.not_mem_nil, or_false, ← UInt16.toNat_inj,
      UInt16.toNat_ofNat', UInt16.toNat_zero] at h
    omega

theorem Begins.takeWhile {s : String} {units : List UInt16} (h : Begins s units)
    (hs : '\x00' ∉ s.toList) : units.takeWhile (· != 0) = encode s := by
  have hne : ∀ u ∈ encode s, (u != 0) = true := by
    intro u hu
    rw [bne_iff_ne]
    rintro rfl
    obtain ⟨c, hc, hzero⟩ := List.mem_flatMap.mp hu
    exact hs (eq_of_zero_mem_encodeChar hzero ▸ hc)
  cases h with
  | whole => exact List.takeWhile_eq_self_iff.mpr hne
  | cut more =>
      rw [List.takeWhile_append_of_pos hne, List.takeWhile_cons_of_neg (by simp), List.append_nil]

/-- A field of units is read whole, and as what its units before the first zero stand for.
A text comes back from its units. -/
theorem field_holds_units (units : List UInt16) (h : units.length ≤ 65535) (pos : Nat)
    (suffix : Bytes) :
    ∃ text, Reader.utf16 ⟨pos, Word.bytes 2 units.length ++ bytes units ++ suffix⟩ =
        .ok text ⟨pos + (2 + 2 * units.length), suffix⟩ ∧
      (∀ cs, Denotes (units.takeWhile (· != 0)) cs ↔ text = String.ofList cs) ∧
      ∀ s, '\x00' ∉ s.toList → Begins s units → text = s := by
  have hdenotes : ∀ cs, Denotes (units.takeWhile (· != 0)) cs ↔
      text (units.map UInt16.toNat) = String.ofList cs := by
    intro cs
    rw [denotes_iff, text, takeWhile_toNat, String.ofList_inj]
  refine ⟨_, utf16_units (Nat.lt_succ_of_le h) pos suffix, hdenotes, ?_⟩
  intro s hs hbegins
  have hencode := denotes_encode s
  rw [← hbegins.takeWhile hs, hdenotes, String.ofList_toList] at hencode
  exact hencode

/-- A low surrogate in front of a high one, a high one in front of a letter, a pair, and a
high one at the end. Then a text with a pair in it, in front of a zero unit. -/
theorem field_holds_units_surrogates :
    Reader.utf16 ⟨0, [6, 0] ++ bytes [0xDE00, 0xD83D, 0x41, 0xD83D, 0xDE00, 0xD800] ++ [7]⟩ =
      .ok "\uFFFD\uFFFDA😀\uFFFD" ⟨14, [7]⟩ ∧
    Reader.utf16 ⟨0, [5, 0] ++ bytes (encode "a😀" ++ 0 :: [0xD83D]) ++ [7]⟩ =
      .ok "a😀" ⟨12, [7]⟩ := by
  have hdenotes : Denotes [0xDE00, 0xD83D, 0x41, 0xD83D, 0xDE00, 0xD800]
      ['\uFFFD', '\uFFFD', 'A', '😀', '\uFFFD'] :=
    .loneLow rfl (.loneHigh rfl (by simp [isLow]) (.char 'A' (.char '😀'
      (.loneHigh rfl (by simp) .nil))))
  obtain ⟨text, hread, hmeans, -⟩ :=
    field_holds_units [0xDE00, 0xD83D, 0x41, 0xD83D, 0xDE00, 0xD800] (by decide) 0 [7]
  obtain ⟨cut, hcut, -, hbegins⟩ :=
    field_holds_units (encode "a😀" ++ 0 :: [0xD83D]) (by decide) 0 [7]
  rw [(hmeans _).mp hdenotes] at hread
  rw [hbegins "a😀" (by decide) (.cut [0xD83D])] at hcut
  exact ⟨hread, hcut⟩

end Text.Utf16

end WireCapture
