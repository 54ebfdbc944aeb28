import Mathlib.Data.List.TakeWhile
import WireCapture.Proofs.Utf8

/-!
# Pieces of byte strings

A piece that is a character was cut off with exactly the bytes of that character. So
strict decoding accepts exactly the byte strings in UTF-8, and lossy decoding makes up
no NUL character: the text of a field that a NUL ends has none.
-/
namespace WireCapture.Text.Utf8

theorem toNat_ofNat_of_valid {n : Nat} (h : n.isValidChar) : (Char.ofNat n).toNat = n := by
  rw [Char.ofNat, dif_pos h]
  rfl

theorem encodeChar_one {a : UInt8} (ha : a.toNat < 0x80) :
    String.utf8EncodeChar (Char.ofNat a.toNat) = [a] := by
  have hn : (Char.ofNat a.toNat).val.toNat = a.toNat := toNat_ofNat_of_valid (.inl (by omega))
  unfold String.utf8EncodeChar
  simp only [hn]
  rw [if_pos (by omega), UInt8.ofNat_toNat]

theorem ofNat_eq_of_toNat {a : UInt8} {n : Nat} (h : n = a.toNat) : UInt8.ofNat n = a := by
  rw [h, UInt8.ofNat_toNat]

theorem encodeChar_two {a b : UInt8} (ha : 0xC2 ≤ a.toNat ∧ a.toNat ≤ 0xDF)
    (hb : isTail b = true) : String.utf8EncodeChar (two a b) = [a, b] := by
  obtain ⟨hlow, hhigh⟩ := (isTail_iff b).mp hb
  have hn : (two a b).val.toNat = (a.toNat - 0xC0) * 64 + (b.toNat - 0x80) :=
    toNat_ofNat_of_valid (.inl (by omega))
  unfold String.utf8EncodeChar
  simp only [hn]
  rw [if_neg (by omega), if_pos (by omega)]
  rw [ofNat_eq_of_toNat (a := a) (by omega), ofNat_eq_of_toNat (a := b) (by omega)]

theorem encodeChar_three {a b c : UInt8} (ha : 0xE0 ≤ a.toNat ∧ a.toNat ≤ 0xEF)
    (hb : isSecondOfThree a b = true) (hc : isTail c = true) :
    String.utf8EncodeChar (three a b c) = [a, b, c] := by
  obtain ⟨hlow, hhigh, hfirst, hsurrogate⟩ := (isSecondOfThree_iff a b).mp hb
  obtain ⟨hclow, hchigh⟩ := (isTail_iff c).mp hc
  have hvalid : ((a.toNat - 0xE0) * 4096 + (b.toNat - 0x80) * 64 +
      (c.toNat - 0x80)).isValidChar := by
    change _ < _ ∨ _ < _ ∧ _ < _
    omega
  have hn : (three a b c).val.toNat = (a.toNat - 0xE0) * 4096 + (b.toNat - 0x80) * 64 +
      (c.toNat - 0x80) := toNat_ofNat_of_valid hvalid
  unfold String.utf8EncodeChar
  simp only [hn]
  rw [if_neg (by omega), if_neg (by omega), if_pos (by omega),
    ofNat_eq_of_toNat (a := a) (by omega), ofNat_eq_of_toNat (a := b) (by omega),
    ofNat_eq_of_toNat (a := c) (by omega)]

theorem encodeChar_four {a b c d : UInt8} (ha : 0xF0 ≤ a.toNat ∧ a.toNat ≤ 0xF4)
    (hb : isSecondOfFour a b = true) (hc : isTail c = true) (hd : isTail d = true) :
    String.utf8EncodeChar (four a b c d) = [a, b, c, d] := by
  obtain ⟨hlow, hhigh, hfirst, hlast⟩ := (isSecondOfFour_iff a b).mp hb
  obtain ⟨hclow, hchigh⟩ := (isTail_iff c).mp hc
  obtain ⟨hdlow, hdhigh⟩ := (isTail_iff d).mp hd
  have hvalid : ((a.toNat - 0xF0) * 262144 + (b.toNat - 0x80) * 4096 +
      (c.toNat - 0x80) * 64 + (d.toNat - 0x80)).isValidChar := by
    change _ < _ ∨ _ < _ ∧ _ < _
    omega
  have hn : (four a b c d).val.toNat = (a.toNat - 0xF0) * 262144 + (b.toNat - 0x80) * 4096 +
      (c.toNat - 0x80) * 64 + (d.toNat - 0x80) := toNat_ofNat_of_valid hvalid
  unfold String.utf8EncodeChar
  simp only [hn]
  rw [if_neg (by omega), if_neg (by omega), if_neg (by omega),
    ofNat_eq_of_toNat (a := a) (by omega), ofNat_eq_of_toNat (a := b) (by omega),
    ofNat_eq_of_toNat (a := c) (by omega), ofNat_eq_of_toNat (a := d) (by omega)]

theorem le_and_le_iff {a : UInt8} {m n : UInt8} :
    (m ≤ a && a ≤ n) = true ↔ m.toNat ≤ a.toNat ∧ a.toNat ≤ n.toNat := by
  simp [UInt8.le_iff_toNat_le]

/-- A piece that is a character is cut off with exactly the bytes of that character. -/
theorem eq_encodeChar_of_piece {a : UInt8} {rest rest' : Bytes} {c : Char}
    (h : piece a rest = (some c, rest')) : a :: rest = String.utf8EncodeChar c ++ rest' := by
  unfold piece at h
  repeat' split at h
  all_goals
    simp only [Prod.mk.injEq, Option.some.injEq, reduceCtorEq, false_and] at h
  · rename_i ha
    rw [← h.1, ← h.2, encodeChar_one (UInt8.lt_iff_toNat_lt.mp ha)]
    rfl
  · rename_i ha _ b _ hb
    rw [← h.1, ← h.2, encodeChar_two (le_and_le_iff.mp ha) hb]
    rfl
  · rename_i ha _ b hb _ c _ hc
    rw [← h.1, ← h.2, encodeChar_three (le_and_le_iff.mp ha) hb hc]
    rfl
  · rename_i ha _ b hb _ c hc _ d _ hd
    rw [← h.1, ← h.2, encodeChar_four (le_and_le_iff.mp ha) hb hc hd]
    rfl

theorem piece_suffix (a : UInt8) (rest : Bytes) : (piece a rest).2 <:+ rest := by
  unfold piece
  repeat' split
  all_goals
    first
    | exact List.nil_suffix
    | exact ⟨[], rfl⟩
    | exact ⟨[_], rfl⟩
    | exact ⟨[_, _], rfl⟩
    | exact ⟨[_, _, _], rfl⟩

/-- Byte strings are cut up from the front, one piece after the other. -/
@[elab_as_elim]
theorem induction_on_pieces {P : Bytes → Prop} (bs : Bytes) (nil : P [])
    (cons : ∀ a rest, P (piece a rest).2 → P (a :: rest)) : P bs := by
  generalize hn : bs.length = n
  induction n using Nat.strongRecOn generalizing bs with
  | ind n ih =>
      subst hn
      cases bs with
      | nil => exact nil
      | cons a rest =>
          have hlt := Nat.lt_succ_of_le (length_piece_le a rest)
          exact cons a rest (ih _ hlt _ rfl)

/-- Bytes that are a text in UTF-8. -/
def IsUtf8 (bs : Bytes) : Prop := ∃ s, encode s = bs

theorem encode_ofList (cs : List Char) :
    encode (String.ofList cs) = cs.flatMap String.utf8EncodeChar := by
  rw [encode, String.toList_ofList]

theorem flatMap_of_pieces_all {bs : Bytes} (h : (pieces bs).all Option.isSome = true) :
    ((pieces bs).filterMap id).flatMap String.utf8EncodeChar = bs := by
  induction bs using induction_on_pieces with
  | nil => rw [pieces_nil]; rfl
  | cons a rest ih =>
      rw [pieces_cons] at h ⊢
      rw [List.all_cons, Bool.and_eq_true] at h
      obtain ⟨c, hc⟩ := Option.isSome_iff_exists.mp h.1
      have hpiece : piece a rest = (some c, (piece a rest).2) := Prod.ext hc rfl
      rw [hc]
      change String.utf8EncodeChar c ++ List.flatMap _ _ = _
      rw [ih h.2]
      exact (eq_encodeChar_of_piece hpiece).symm

theorem decode?_encode (s : String) : decode? (encode s) = some s := by
  simp [decode?, pieces_encode, List.filterMap_map]

theorem decode?_eq_some_iff {bs : Bytes} {s : String} : decode? bs = some s ↔ encode s = bs := by
  constructor
  · intro h
    simp only [decode?] at h
    split at h
    · rename_i hall
      cases h
      rw [encode_ofList, flatMap_of_pieces_all hall]
    · cases h
  · intro h
    rw [← h, decode?_encode]

instance (bs : Bytes) : Decidable (IsUtf8 bs) :=
  decidable_of_iff ((decode? bs).isSome = true) <| by
    simp only [Option.isSome_iff_exists, decode?_eq_some_iff, IsUtf8]

theorem zero_mem_of_piece {a : UInt8} {rest : Bytes} (h : (piece a rest).1 = some '\x00') :
    a = 0 := by
  have hpiece : piece a rest = (some '\x00', (piece a rest).2) := Prod.ext h rfl
  exact (List.cons.inj (eq_encodeChar_of_piece hpiece)).1

theorem zero_mem_of_mem_pieces {bs : Bytes} (h : some '\x00' ∈ pieces bs) : 0 ∈ bs := by
  induction bs using induction_on_pieces with
  | nil =>
      rw [pieces_nil] at h
      cases h
  | cons a rest ih =>
      rw [pieces_cons, List.mem_cons] at h
      rcases h with h | h
      · exact List.mem_cons.mpr (.inl (zero_mem_of_piece h.symm).symm)
      · exact List.mem_cons_of_mem _ ((piece_suffix a rest).subset (ih h))

theorem nul_not_mem_cString (bs : Bytes) : '\x00' ∉ (cString bs).toList := by
  intro h
  rw [cString, decodeLossy, String.toList_ofList, List.mem_map] at h
  obtain ⟨c, hc, hnul⟩ := h
  cases c with
  | none => exact absurd hnul (by decide)
  | some c =>
      change c = '\x00' at hnul
      have hzero := zero_mem_of_mem_pieces (hnul ▸ hc)
      exact absurd (List.mem_takeWhile_imp hzero) (by decide)

/-- The part of a text before its first NUL character. -/
def beforeNul (s : String) : String := String.ofList (s.toList.takeWhile (· != '\x00'))

theorem beforeNul_eq_self_iff {s : String} : beforeNul s = s ↔ '\x00' ∉ s.toList := by
  have hne : (∀ c ∈ s.toList, (c != '\x00') = true) ↔ '\x00' ∉ s.toList := by
    simp only [bne_iff_ne]
    exact ⟨fun h hnul => h _ hnul rfl, fun h c hc hnul => h (hnul ▸ hc)⟩
  rw [beforeNul, ← String.toList_inj, String.toList_ofList, List.takeWhile_eq_self_iff, hne]

/-- A text stands in a field up to its first NUL character. -/
theorem takeWhile_encode_append (s : String) (n : Nat) :
    (encode s ++ List.replicate n 0).takeWhile (· != 0) = encode (beforeNul s) := by
  rw [beforeNul, encode_ofList, encode]
  induction s.toList with
  | nil => cases n <;> rfl
  | cons c cs ih =>
      rw [List.flatMap_cons, List.append_assoc, List.takeWhile_cons]
      by_cases hc : c = '\x00'
      · subst hc
        rfl
      · have hne : (c != '\x00') = true := bne_iff_ne.mpr hc
        have hbytes : ∀ b ∈ String.utf8EncodeChar c, (b != 0) = true := by
          intro b hb
          rw [bne_iff_ne]
          exact fun hzero => hc (eq_of_zero_mem_encodeChar (hzero ▸ hb))
        rw [List.takeWhile_append_of_pos hbytes, ih, if_pos hne, List.flatMap_cons]

theorem cString_encode_append (s : String) (n : Nat) :
    cString (encode s ++ List.replicate n 0) = beforeNul s := by
  rw [cString, takeWhile_encode_append, decodeLossy_encode]

/-- The text of a field is written as it was found exactly if it was found in UTF-8. -/
theorem encode_cString_iff {bs : Bytes} :
    encode (cString bs) = bs.takeWhile (· != 0) ↔ IsUtf8 (bs.takeWhile (· != 0)) := by
  constructor
  · exact fun h => ⟨_, h⟩
  · intro h
    obtain ⟨s, hs⟩ := h
    rw [cString, ← hs, decodeLossy_encode]

theorem length_encode_cString_le {bs : Bytes} (h : IsUtf8 (bs.takeWhile (· != 0))) :
    (encode (cString bs)).length ≤ bs.length := by
  rw [encode_cString_iff.mpr h]
  exact (List.takeWhile_sublist _).length_le

end WireCapture.Text.Utf8
