import WireCapture.Text.Utf8

/-!
# UTF-8 text comes back

A character that is written in UTF-8 is one piece of the byte string, whatever
follows. So a text is decoded to itself, and a text without a NUL character is
what a field of that content holds.
-/
namespace WireCapture.Text.Utf8

theorem toNat_ofNat_of_lt {n : Nat} (h : n < 256) : (UInt8.ofNat n).toNat = n :=
  UInt8.toNat_ofNat'.trans (Nat.mod_eq_of_lt h)

theorem isTail_iff (b : UInt8) : isTail b = true ↔ 0x80 ≤ b.toNat ∧ b.toNat ≤ 0xBF := by
  simp [isTail, UInt8.le_iff_toNat_le]

theorem isSecondOfThree_iff (a b : UInt8) : isSecondOfThree a b = true ↔
    0x80 ≤ b.toNat ∧ b.toNat ≤ 0xBF ∧ (a.toNat = 0xE0 → 0xA0 ≤ b.toNat) ∧
      (a.toNat = 0xED → b.toNat ≤ 0x9F) := by
  have h₁ : a = 0xE0 ↔ a.toNat = 0xE0 := by rw [← UInt8.toNat_inj]; rfl
  have h₂ : a = 0xED ↔ a.toNat = 0xED := by rw [← UInt8.toNat_inj]; rfl
  simp only [isSecondOfThree, h₁, h₂]
  split
  · simp only [Bool.and_eq_true, decide_eq_true_eq, UInt8.le_iff_toNat_le, UInt8.reduceToNat]
    omega
  · split
    · simp only [Bool.and_eq_true, decide_eq_true_eq, UInt8.le_iff_toNat_le, UInt8.reduceToNat]
      omega
    · rw [isTail_iff]
      omega

theorem isSecondOfFour_iff (a b : UInt8) : isSecondOfFour a b = true ↔
    0x80 ≤ b.toNat ∧ b.toNat ≤ 0xBF ∧ (a.toNat = 0xF0 → 0x90 ≤ b.toNat) ∧
      (a.toNat = 0xF4 → b.toNat ≤ 0x8F) := by
  have h₁ : a = 0xF0 ↔ a.toNat = 0xF0 := by rw [← UInt8.toNat_inj]; rfl
  have h₂ : a = 0xF4 ↔ a.toNat = 0xF4 := by rw [← UInt8.toNat_inj]; rfl
  simp only [isSecondOfFour, h₁, h₂]
  split
  · simp only [Bool.and_eq_true, decide_eq_true_eq, UInt8.le_iff_toNat_le, UInt8.reduceToNat]
    omega
  · split
    · simp only [Bool.and_eq_true, decide_eq_true_eq, UInt8.le_iff_toNat_le, UInt8.reduceToNat]
      omega
    · rw [isTail_iff]
      omega

-- The four lengths of a character, each as the piece that its bytes make.

theorem piece_one {a : UInt8} (ha : a.toNat < 0x80) (rest : Bytes) :
    piece a rest = (some (Char.ofNat a.toNat), rest) := by
  have h : a < 0x80 := UInt8.lt_iff_toNat_lt.mpr ha
  simp only [piece, if_pos h]

theorem piece_two {a b : UInt8} (ha : 0xC2 ≤ a.toNat ∧ a.toNat ≤ 0xDF)
    (hb : isTail b = true) (rest : Bytes) :
    piece a (b :: rest) = (some (two a b), rest) := by
  have h₁ : ¬ a < 0x80 := by
    simp only [UInt8.lt_iff_toNat_lt, UInt8.reduceToNat]
    omega
  have h₂ : (0xC2 ≤ a && a ≤ 0xDF) = true := by
    simpa [UInt8.le_iff_toNat_le] using ha
  simp only [piece, if_neg h₁, if_pos h₂, if_pos hb]

theorem piece_three {a b c : UInt8} (ha : 0xE0 ≤ a.toNat ∧ a.toNat ≤ 0xEF)
    (hb : isSecondOfThree a b = true) (hc : isTail c = true) (rest : Bytes) :
    piece a (b :: c :: rest) = (some (three a b c), rest) := by
  have h₁ : ¬ a < 0x80 := by
    simp only [UInt8.lt_iff_toNat_lt, UInt8.reduceToNat]
    omega
  have h₂ : ¬ (0xC2 ≤ a && a ≤ 0xDF) = true := by
    simp only [Bool.and_eq_true, decide_eq_true_eq, UInt8.le_iff_toNat_le, UInt8.reduceToNat]
    omega
  have h₃ : (0xE0 ≤ a && a ≤ 0xEF) = true := by
    simpa [UInt8.le_iff_toNat_le] using ha
  simp only [piece, if_neg h₁, if_neg h₂, if_pos h₃, if_pos hb, if_pos hc]

theorem piece_four {a b c d : UInt8} (ha : 0xF0 ≤ a.toNat ∧ a.toNat ≤ 0xF4)
    (hb : isSecondOfFour a b = true) (hc : isTail c = true) (hd : isTail d = true)
    (rest : Bytes) :
    piece a (b :: c :: d :: rest) = (some (four a b c d), rest) := by
  have h₁ : ¬ a < 0x80 := by
    simp only [UInt8.lt_iff_toNat_lt, UInt8.reduceToNat]
    omega
  have h₂ : ¬ (0xC2 ≤ a && a ≤ 0xDF) = true := by
    simp only [Bool.and_eq_true, decide_eq_true_eq, UInt8.le_iff_toNat_le, UInt8.reduceToNat]
    omega
  have h₃ : ¬ (0xE0 ≤ a && a ≤ 0xEF) = true := by
    simp only [Bool.and_eq_true, decide_eq_true_eq, UInt8.le_iff_toNat_le, UInt8.reduceToNat]
    omega
  have h₄ : (0xF0 ≤ a && a ≤ 0xF4) = true := by
    simpa [UInt8.le_iff_toNat_le] using ha
  simp only [piece, if_neg h₁, if_neg h₂, if_neg h₃, if_pos h₄, if_pos hb, if_pos hc, if_pos hd]

/-- A code point is at most U+10FFFF and no surrogate. -/
theorem toNat_valid (c : Char) : c.toNat < 0xD800 ∨ 0xDFFF < c.toNat ∧ c.toNat < 0x110000 :=
  c.valid

theorem ofNat_eq {c : Char} {n : Nat} (h : n = c.toNat) : Char.ofNat n = c := by
  rw [h, Char.ofNat_toNat]

/-- The bytes of a character are cut off as one piece, in front of any others. -/
theorem pieces_encodeChar_append (c : Char) (rest : Bytes) :
    pieces (String.utf8EncodeChar c ++ rest) = some c :: pieces rest := by
  have hv := toNat_valid c
  have hn : c.val.toNat = c.toNat := rfl
  unfold String.utf8EncodeChar
  simp only [hn]
  split
  · have ha : (UInt8.ofNat c.toNat).toNat = c.toNat :=
      toNat_ofNat_of_lt (by omega)
    rw [List.singleton_append, pieces_cons, piece_one (by omega),
      ofNat_eq ha]
  · split
    · have ha : (UInt8.ofNat (c.toNat / 64 % 0x20 + 0xC0)).toNat = c.toNat / 64 + 0xC0 := by
        rw [toNat_ofNat_of_lt (by omega)]
        omega
      have hb : (UInt8.ofNat (c.toNat % 0x40 + 0x80)).toNat = c.toNat % 64 + 0x80 :=
        toNat_ofNat_of_lt (by omega)
      rw [List.cons_append, List.singleton_append, pieces_cons,
        piece_two (by omega) ((isTail_iff _).mpr (by omega)), two, ha, hb,
        ofNat_eq (c := c) (by omega)]
    · split
      · have ha : (UInt8.ofNat (c.toNat / 4096 % 0x10 + 0xE0)).toNat =
            c.toNat / 4096 + 0xE0 := by
          rw [toNat_ofNat_of_lt (by omega)]
          omega
        have hb : (UInt8.ofNat (c.toNat / 64 % 0x40 + 0x80)).toNat =
            c.toNat / 64 % 64 + 0x80 := toNat_ofNat_of_lt (by omega)
        have hd : (UInt8.ofNat (c.toNat % 0x40 + 0x80)).toNat = c.toNat % 64 + 0x80 :=
          toNat_ofNat_of_lt (by omega)
        rw [List.cons_append, List.cons_append, List.singleton_append, pieces_cons,
          piece_three (by omega) ((isSecondOfThree_iff _ _).mpr (by omega))
            ((isTail_iff _).mpr (by omega)), three, ha, hb, hd,
          ofNat_eq (c := c) (by omega)]
      · have ha : (UInt8.ofNat (c.toNat / 262144 % 0x08 + 0xF0)).toNat =
            c.toNat / 262144 + 0xF0 := by
          rw [toNat_ofNat_of_lt (by omega)]
          omega
        have hb : (UInt8.ofNat (c.toNat / 4096 % 0x40 + 0x80)).toNat =
            c.toNat / 4096 % 64 + 0x80 := toNat_ofNat_of_lt (by omega)
        have hd : (UInt8.ofNat (c.toNat / 64 % 0x40 + 0x80)).toNat =
            c.toNat / 64 % 64 + 0x80 := toNat_ofNat_of_lt (by omega)
        have he : (UInt8.ofNat (c.toNat % 0x40 + 0x80)).toNat = c.toNat % 64 + 0x80 :=
          toNat_ofNat_of_lt (by omega)
        rw [List.cons_append, List.cons_append, List.cons_append, List.singleton_append,
          pieces_cons, piece_four (by omega) ((isSecondOfFour_iff _ _).mpr (by omega))
            ((isTail_iff _).mpr (by omega)) ((isTail_iff _).mpr (by omega)), four, ha, hb, hd, he,
          ofNat_eq (c := c) (by omega)]

theorem pieces_encode_append (s : String) (rest : Bytes) :
    pieces (encode s ++ rest) = s.toList.map some ++ pieces rest := by
  unfold encode
  induction s.toList with
  | nil => rfl
  | cons c cs ih =>
      rw [List.flatMap_cons, List.append_assoc, pieces_encodeChar_append, ih]
      rfl

theorem pieces_encode (s : String) : pieces (encode s) = s.toList.map some := by
  have h := pieces_encode_append s []
  rwa [List.append_nil, pieces_nil, List.append_nil] at h

theorem decodeLossy_encode (s : String) : decodeLossy (encode s) = s := by
  rw [decodeLossy, pieces_encode, List.map_map]
  simp [Function.comp_def]

/-- Only the NUL character has a zero byte. -/
theorem eq_of_zero_mem_encodeChar {c : Char} (h : 0 ∈ String.utf8EncodeChar c) : c = '\x00' := by
  have hv := toNat_valid c
  have hn : c.val.toNat = c.toNat := rfl
  apply Char.toNat_inj.mp
  unfold String.utf8EncodeChar at h
  simp only [hn] at h
  split at h
  · rw [List.mem_singleton, ← UInt8.toNat_inj, toNat_ofNat_of_lt (by omega)] at h
    exact h.symm
  · exfalso
    split at h
    · simp only [List.mem_cons, List.not_mem_nil, or_false, ← UInt8.toNat_inj,
        UInt8.toNat_ofNat', UInt8.reduceToNat] at h
      omega
    · split at h
      all_goals
        simp only [List.mem_cons, List.not_mem_nil, or_false, ← UInt8.toNat_inj,
          UInt8.toNat_ofNat', UInt8.reduceToNat] at h
        omega

theorem zero_mem_encode {s : String} (h : 0 ∈ encode s) : '\x00' ∈ s.toList := by
  obtain ⟨c, hc, h₀⟩ := List.mem_flatMap.mp h
  exact eq_of_zero_mem_encodeChar h₀ ▸ hc

/-- What a field holds whose content is a text without a NUL character. -/
theorem cString_encode {s : String} (h : '\x00' ∉ s.toList) : cString (encode s) = s := by
  have hz : ∀ b ∈ encode s, (b != 0) = true := by
    intro b hb
    rw [bne_iff_ne]
    intro h₀
    exact h (zero_mem_encode (h₀ ▸ hb))
  have ht : (encode s ++ []).takeWhile (· != 0) = encode s ++ [].takeWhile (· != 0) :=
    List.takeWhile_append_of_pos hz
  rw [List.append_nil, List.takeWhile_nil, List.append_nil] at ht
  rw [cString, ht, decodeLossy_encode]

end WireCapture.Text.Utf8
