import WireCapture.Proofs.ListingLines
import WireCapture.Proofs.OptionLines

/-!
# Padded numerals

Which tokens are accepted as numbers: the digits of a number below the bound in either case,
behind any number of zeros and at most one plus sign. A number that reaches the bound is
refused however it is spelled, and never taken for a smaller one. Bytes may be hexadecimal;
depths and the numbers of object types are decimal.
-/
namespace WireCapture.Text.Numeral

/-- The digits of a number in either case, behind any number of zeros. -/
def Padded (base : Nat) (cs : List Char) (n : Nat) : Prop :=
  ∃ zeros, cs.map Char.toLower = List.replicate zeros '0' ++ Nat.toDigits base n

/-- Padded digits after at most one plus sign. -/
def Token (base : Nat) (cs : List Char) (n : Nat) : Prop :=
  Padded base cs n ∨ ∃ ds, cs = '+' :: ds ∧ Padded base ds n

/-- A zero, the letter of hexadecimal numerals, and what stands behind them. -/
def Hexadecimal (cs ds : List Char) : Prop := ∃ x, (x = 'x' ∨ x = 'X') ∧ cs = '0' :: x :: ds

/-- A byte, where the letter alone tells hexadecimal from decimal. -/
def ByteToken (cs : List Char) (n : Nat) : Prop :=
  (∃ ds, Hexadecimal cs ds ∧ Token 16 ds n) ∨ (¬ ∃ ds, Hexadecimal cs ds) ∧ Token 10 cs n

section Digits

variable {base d n : Nat} {c : Char} {cs : List Char}

theorem toNat_toLower (c : Char) : c.toLower.toNat =
    if 65 ≤ c.toNat ∧ c.toNat ≤ 90 then c.toNat + 32 else c.toNat := by
  have hupper : c.val ≥ 'A'.val ∧ c.val ≤ 'Z'.val ↔ 65 ≤ c.toNat ∧ c.toNat ≤ 90 :=
    and_congr UInt32.le_iff_toNat_le UInt32.le_iff_toNat_le
  unfold Char.toLower
  split
  · rename_i h
    have hbounds := hupper.mp h
    have hsum : (c.val + 32).toNat = (c.toNat + 32) % 2 ^ 32 := UInt32.toNat_add c.val 32
    rw [if_pos hbounds]
    exact hsum.trans (Nat.mod_eq_of_lt (by omega))
  · rename_i h
    rw [if_neg (mt hupper.mpr h)]

theorem isDigit_iff_toLower (hbase : base ≤ 16) :
    IsDigit base c d ↔ d < base ∧ c.toLower = Nat.digitChar d := by
  rw [isDigit_iff hbase]
  refine and_congr_right fun hd => ?_
  rw [← Char.toNat_inj, toNat_toLower, (toNat_digitChar (Nat.lt_of_lt_of_le hd hbase)).1]
  split <;> split <;> omega

theorem Digits.padded (hpos : 1 < base) (hbase : base ≤ 16) (h : Digits base cs n) :
    Padded base cs n := by
  induction h with
  | one hc =>
      obtain ⟨hd, hlower⟩ := (isDigit_iff_toLower hbase).mp hc
      refine ⟨0, ?_⟩
      rw [List.map_singleton, hlower, Nat.toDigits_of_lt_base hd]
      rfl
  | @snoc cs n c d _ hc ih =>
      obtain ⟨hd, hlower⟩ := (isDigit_iff_toLower hbase).mp hc
      obtain ⟨zeros, hzeros⟩ := ih
      rw [Padded, List.map_append, List.map_singleton, hlower, hzeros]
      -- The digit of the number zero turns into padding once another digit follows.
      rcases Nat.eq_zero_or_pos n with rfl | hn
      · refine ⟨zeros + 1, ?_⟩
        rw [Nat.mul_zero, Nat.zero_add, Nat.toDigits_zero, Nat.toDigits_of_lt_base hd,
          List.replicate_succ']
      · refine ⟨zeros, ?_⟩
        rw [← Nat.toDigits_append_toDigits hpos hn hd, Nat.toDigits_of_lt_base hd,
          List.append_assoc]

/-- The last of some characters that are the digits `ds` and one more. -/
theorem exists_last_digit (hbase : base ≤ 16) (hd : d < base) {ds : List Char}
    (h : cs.map Char.toLower = ds ++ [Nat.digitChar d]) :
    ∃ front c, cs = front ++ [c] ∧ front.map Char.toLower = ds ∧ IsDigit base c d := by
  obtain ⟨front, last, rfl, hfront, hlast⟩ := List.map_eq_append_iff.mp h
  obtain ⟨c, rfl, hc⟩ := List.map_eq_singleton_iff.mp hlast
  exact ⟨front, c, rfl, hfront, (isDigit_iff_toLower hbase).mpr ⟨hd, hc⟩⟩

theorem digits_of_zeros (hpos : 1 < base) (hbase : base ≤ 16) {zeros : Nat}
    (h : cs.map Char.toLower = List.replicate (zeros + 1) '0') : Digits base cs 0 := by
  induction zeros generalizing cs with
  | zero =>
      obtain ⟨c, rfl, hc⟩ := List.map_eq_singleton_iff.mp h
      exact .one ((isDigit_iff_toLower hbase).mpr ⟨by omega, hc⟩)
  | succ zeros ih =>
      rw [List.replicate_succ'] at h
      obtain ⟨front, c, rfl, hfront, hc⟩ := exists_last_digit (d := 0) hbase (by omega) h
      exact .snoc (d := 0) (ih hfront) hc

/-- The last digit of a number is its remainder, and what stands in front is the quotient. -/
theorem Padded.digits (hpos : 1 < base) (hbase : base ≤ 16) (h : Padded base cs n) :
    Digits base cs n := by
  induction n using Nat.strongRecOn generalizing cs with
  | ind n ih =>
      obtain ⟨zeros, h⟩ := h
      by_cases hn : n < base
      · rw [Nat.toDigits_of_lt_base hn] at h
        obtain ⟨front, c, rfl, hfront, hc⟩ := exists_last_digit hbase hn h
        cases zeros with
        | zero =>
            cases List.map_eq_nil_iff.mp hfront
            exact .one hc
        | succ zeros => simpa using (digits_of_zeros hpos hbase hfront).snoc hc
      · have hle : base ≤ n := Nat.le_of_not_lt hn
        have hlt : n / base < n := Nat.div_lt_self (by omega) hpos
        rw [Nat.toDigits_of_base_le hpos hle, ← List.append_assoc] at h
        obtain ⟨front, c, rfl, hfront, hc⟩ :=
          exists_last_digit hbase (Nat.mod_lt n (by omega)) h
        have hdigits := (ih (n / base) hlt ⟨zeros, hfront⟩).snoc hc
        rwa [Nat.div_add_mod] at hdigits

theorem digits_iff_padded (hpos : 1 < base) (hbase : base ≤ 16) :
    Digits base cs n ↔ Padded base cs n :=
  ⟨Digits.padded hpos hbase, Padded.digits hpos hbase⟩

theorem spells_iff_token (hpos : 1 < base) (hbase : base ≤ 16) :
    Spells base cs n ↔ Token base cs n := by
  simp only [Spells, Token, digits_iff_padded hpos hbase]

end Digits

section Tokens

variable {base bound m n : Nat} {cs : List Char}

theorem Spells.unique (hbase : base ≤ 16) (hm : Spells base cs m) (hn : Spells base cs n) :
    m = n := by
  have hreads : parse? base (m + n + 1) cs = some m :=
    (parse?_eq_some_iff hbase).mpr ⟨hm, by omega⟩
  rw [(parse?_eq_some_iff hbase).mpr ⟨hn, by omega⟩] at hreads
  exact (Option.some.inj hreads).symm

theorem Token.unique (hpos : 1 < base) (hbase : base ≤ 16) (hm : Token base cs m)
    (hn : Token base cs n) : m = n :=
  Spells.unique hbase ((spells_iff_token hpos hbase).mpr hm) ((spells_iff_token hpos hbase).mpr hn)

theorem spellsByte_iff_byteToken : SpellsByte cs n ↔ ByteToken cs n := by
  have hhex : ∀ {ds}, Spells 16 ds n ↔ Token 16 ds n := spells_iff_token (by decide) (by decide)
  have hdecimal : Spells 10 cs n ↔ Token 10 cs n := spells_iff_token (by decide) (by decide)
  constructor
  · rintro (h | ⟨x, ds, hx, hcs, h⟩)
    · refine .inr ⟨?_, hdecimal.mp h⟩
      rintro ⟨ds, x, hx, rfl⟩
      have hlt := h.toNat_lt x (by simp)
      rcases hx with rfl | rfl <;> exact absurd hlt (by decide)
    · exact .inl ⟨ds, ⟨x, hx, hcs⟩, hhex.mp h⟩
  · rintro (⟨ds, ⟨x, hx, hcs⟩, h⟩ | ⟨-, h⟩)
    · exact .inr ⟨x, ds, hx, hcs, hhex.mpr h⟩
    · exact .inl (hdecimal.mpr h)

theorem ByteToken.unique (hm : ByteToken cs m) (hn : ByteToken cs n) : m = n := by
  rcases hm with ⟨ds, hds, hm⟩ | ⟨hplain, hm⟩
  · rcases hn with ⟨ds', hds', hn⟩ | ⟨hplain, -⟩
    · obtain ⟨x, -, rfl⟩ := hds
      obtain ⟨y, -, heq⟩ := hds'
      cases heq
      exact hm.unique (by decide) (by decide) hn
    · exact absurd ⟨ds, hds⟩ hplain
  · rcases hn with ⟨ds, hds, -⟩ | ⟨-, hn⟩
    · exact absurd ⟨ds, hds⟩ hplain
    · exact hm.unique (by decide) (by decide) hn

theorem byte?_eq_some_iff_byteToken {b : UInt8} : byte? cs = some b ↔ ByteToken cs b.toNat := by
  rw [byte?_eq_some_iff, spellsByte_iff_byteToken]

theorem decimal?_eq_some_iff_token : decimal? bound cs = some n ↔ Token 10 cs n ∧ n < bound := by
  rw [decimal?_eq_some_iff, spells_iff_token (by decide) (by decide)]

/-- Reading accepts the tokens of the numbers below a bound, each as its number, and it
refuses every token of another number. -/
structure ReadsBelow (bound : Nat) (token : List Char → Nat → Prop)
    (read : List Char → Option Nat) : Prop where
  accepts : ∀ cs n, read cs = some n ↔ token cs n ∧ n < bound
  refuses : ∀ cs n, token cs n → bound ≤ n → read cs = none

/-- A token that stands for one number only is not taken for another. -/
theorem ReadsBelow.of_unique {token : List Char → Nat → Prop} {read : List Char → Option Nat}
    (hunique : ∀ {cs m n}, token cs m → token cs n → m = n)
    (h : ∀ cs n, read cs = some n ↔ token cs n ∧ n < bound) : ReadsBelow bound token read where
  accepts := h
  refuses cs n htoken hle := by
    rw [Option.eq_none_iff_forall_ne_some]
    intro m hm
    obtain ⟨hm, hlt⟩ := (h cs m).mp hm
    cases hunique htoken hm
    omega

theorem readsBelow_byte : ReadsBelow 256 ByteToken fun cs => (byte? cs).map UInt8.toNat := by
  refine .of_unique ByteToken.unique fun cs n => ?_
  rw [Option.map_eq_some_iff]
  constructor
  · rintro ⟨b, hb, rfl⟩
    exact ⟨byte?_eq_some_iff_byteToken.mp hb, b.toNat_lt⟩
  · rintro ⟨h, hlt⟩
    have hn : (UInt8.ofNat n).toNat = n := UInt8.toNat_ofNat_of_lt' hlt
    exact ⟨UInt8.ofNat n, byte?_eq_some_iff_byteToken.mpr (hn.symm ▸ h), hn⟩

theorem readsBelow_decimal (bound : Nat) : ReadsBelow bound (Token 10) (decimal? bound) :=
  .of_unique (Token.unique (by decide) (by decide)) fun _ _ => decimal?_eq_some_iff_token

end Tokens

section Places

variable {value : String}

theorem ofPair_xorKey_iff {b : UInt8} :
    Directive.ofPair ("xorkey", value) = .xorKey b ↔ byte? value.toList = some b := by
  cases h : byte? value.toList <;> simp [Directive.ofPair, Directive.ofOption, h]

theorem ofPair_maxDepth_iff {n : Nat} : Directive.ofPair ("maxdepth", value) = .maxDepth n ↔
    decimal? UInt64.size value.toList = some n := by
  cases h : decimal? UInt64.size value.toList <;> simp [Directive.ofPair, Directive.ofOption, h]

theorem row?_id_iff {line id name tag : List Char} {n : Nat} (h : Laid line [id, name, tag]) :
    (∃ row, ObjectTable.Listing.row? line = .ok row ∧ row.id.toNat = n) ↔
      Spells 10 id n ∧ n < UInt16.size := by
  constructor
  · rintro ⟨row, hrow, rfl⟩
    obtain ⟨_, hlaid, hspells⟩ := ObjectTable.Listing.row?_eq_ok_iff.mp hrow
    cases h.fields.symm.trans hlaid.fields
    exact ⟨hspells, row.id.toNat_lt⟩
  · rintro ⟨hspells, hn⟩
    have hid : (UInt16.ofNat n).toNat = n := UInt16.toNat_ofNat_of_lt' hn
    refine ⟨⟨UInt16.ofNat n, String.ofList name, ⟨String.ofList tag⟩⟩, ?_, hid⟩
    exact ObjectTable.Listing.row?_eq_ok_iff.mpr ⟨id, by simpa using h, hid.symm ▸ hspells⟩

end Places

/-- Tokens are read exactly. A byte is a hexadecimal token behind its letter, or a decimal
one; the key of a mask is a byte, a depth is a decimal token below 2^64, and the number of
an object type is one below 2^16. So every padded spelling of a number below the bound is
read as this number, and no spelling of another number is read at all. -/
theorem tokens_read_exactly :
    ReadsBelow 256 ByteToken (fun cs => (byte? cs).map UInt8.toNat) ∧
    (∀ bound, ReadsBelow bound (Token 10) (decimal? bound)) ∧
    (∀ value b, Directive.ofPair ("xorkey", value) = .xorKey b ↔
      ByteToken value.toList b.toNat) ∧
    (∀ value n, Directive.ofPair ("maxdepth", value) = .maxDepth n ↔
      Token 10 value.toList n ∧ n < UInt64.size) ∧
    (∀ line id name tag n, Laid line [id, name, tag] →
      ((∃ row, ObjectTable.Listing.row? line = .ok row ∧ row.id.toNat = n) ↔
        Token 10 id n ∧ n < UInt16.size)) ∧
    (∀ bound n ds, n < bound → Padded 10 ds n →
      decimal? bound ds = some n ∧ decimal? bound ('+' :: ds) = some n) ∧
    (∀ (b : UInt8) ds, Padded 10 ds b.toNat → byte? ds = some b ∧ byte? ('+' :: ds) = some b) ∧
    ∀ (b : UInt8) x ds, x = 'x' ∨ x = 'X' → Padded 16 ds b.toNat →
      byte? ('0' :: x :: ds) = some b ∧ byte? ('0' :: x :: '+' :: ds) = some b := by
  refine ⟨readsBelow_byte, readsBelow_decimal, ?_, ?_, ?_, ?_, ?_, ?_⟩
  · intro value b
    rw [ofPair_xorKey_iff, byte?_eq_some_iff_byteToken]
  · intro value n
    rw [ofPair_maxDepth_iff, decimal?_eq_some_iff_token]
  · intro line id name tag n h
    rw [row?_id_iff h, spells_iff_token (by decide) (by decide)]
  · intro bound n ds hn h
    exact ⟨decimal?_eq_some_iff_token.mpr ⟨.inl h, hn⟩,
      decimal?_eq_some_iff_token.mpr ⟨.inr ⟨ds, rfl, h⟩, hn⟩⟩
  · intro b ds h
    have hdigits := h.digits (by decide) (by decide)
    exact ⟨byte?_eq_some_iff.mpr (.inl (.inl hdigits)),
      byte?_eq_some_iff.mpr (.inl (.inr ⟨ds, rfl, hdigits⟩))⟩
  · intro b x ds hx h
    exact ⟨byte?_eq_some_iff_byteToken.mpr (.inl ⟨ds, ⟨x, hx, rfl⟩, .inl h⟩),
      byte?_eq_some_iff_byteToken.mpr (.inl ⟨_, ⟨x, hx, rfl⟩, .inr ⟨ds, rfl, h⟩⟩)⟩

/-- A sign behind the letter and digits in both cases, the first depth that is too large and
the first byte, and the number of an object type with zeros in front. -/
theorem tokens_read_exactly_samples :
    byte? "0X+00fF".toList = some 255 ∧
    (byte? "0x100".toList).map UInt8.toNat = none ∧
    Directive.ofPair ("maxdepth", "+0064") = .maxDepth 64 ∧
    decimal? UInt64.size "018446744073709551616".toList = none ∧
    ∃ row, ObjectTable.Listing.row? "0065535 crate T".toList = .ok row ∧
      row.id.toNat = 65535 := by
  obtain ⟨hbyte, hdecimal, -, hdepth, hid, -, -, hhex⟩ := tokens_read_exactly
  refine ⟨?_, ?_, ?_, ?_, ?_⟩
  · exact (hhex 255 'X' "00fF".toList (.inr rfl) ⟨2, by decide +kernel⟩).2
  · refine hbyte.refuses _ 256 (.inl ⟨"100".toList, ⟨'x', .inl rfl, rfl⟩, ?_⟩) (Nat.le_refl 256)
    exact .inl ⟨0, by decide +kernel⟩
  · refine (hdepth "+0064" 64).mpr ⟨.inr ⟨"0064".toList, rfl, 2, by decide +kernel⟩, by decide⟩
  · exact (hdecimal UInt64.size).refuses _ UInt64.size (.inl ⟨1, by decide +kernel⟩)
      (Nat.le_refl _)
  · have hlaid : Laid "0065535 crate T".toList ["0065535".toList, "crate".toList, "T".toList] := by
      obtain ⟨fs, hfs⟩ := exists_laid "0065535 crate T".toList
      have hfields : fields "0065535 crate T".toList =
          ["0065535".toList, "crate".toList, "T".toList] := by decide +kernel
      exact hfields ▸ hfs.fields.symm ▸ hfs
    exact (hid _ _ _ _ 65535 hlaid).mpr ⟨.inl ⟨2, by decide +kernel⟩, by decide⟩

end WireCapture.Text.Numeral
