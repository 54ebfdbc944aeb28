import Mathlib.Data.List.Induction
import WireCapture.Proofs.TextLines
import WireCapture.Text.Numeral

/-!
# Numerals

Which characters spell which number, said digit by digit: a digit more multiplies the
number by the base and adds to it. Reading a numeral accepts exactly the spellings of the
numbers below its bound, and the decimal digits that are written for a number spell it.
-/
namespace WireCapture.Text.Numeral

/-- The digit for `d` in either case. -/
def IsDigit (base : Nat) (c : Char) (d : Nat) : Prop :=
  d < base ∧ (c = Nat.digitChar d ∨ c = (Nat.digitChar d).toUpper)

/-- One digit or more, the highest first. -/
inductive Digits (base : Nat) : List Char → Nat → Prop
  | one {c : Char} {d : Nat} : IsDigit base c d → Digits base [c] d
  | snoc {cs : List Char} {n : Nat} {c : Char} {d : Nat} :
      Digits base cs n → IsDigit base c d → Digits base (cs ++ [c]) (base * n + d)

/-- Digits after at most one plus sign. -/
def Spells (base : Nat) (cs : List Char) (n : Nat) : Prop :=
  Digits base cs n ∨ ∃ ds, cs = '+' :: ds ∧ Digits base ds n

/-- A byte in decimal, or in hexadecimal behind a zero and a letter. -/
def SpellsByte (cs : List Char) (n : Nat) : Prop :=
  Spells 10 cs n ∨ ∃ x ds, (x = 'x' ∨ x = 'X') ∧ cs = '0' :: x :: ds ∧ Spells 16 ds n

theorem toNat_digitChar {d : Nat} (h : d < 16) :
    (Nat.digitChar d).toNat = (if d < 10 then 48 + d else 87 + d) ∧
      (Nat.digitChar d).toUpper.toNat = (if d < 10 then 48 + d else 55 + d) := by
  have hall : ∀ d < 16, (Nat.digitChar d).toNat = (if d < 10 then 48 + d else 87 + d) ∧
      (Nat.digitChar d).toUpper.toNat = (if d < 10 then 48 + d else 55 + d) := by decide
  exact hall d h

theorem isDigit_iff {base d : Nat} {c : Char} (hbase : base ≤ 16) : IsDigit base c d ↔
    d < base ∧ (d < 10 ∧ c.toNat = 48 + d ∨ 10 ≤ d ∧ (c.toNat = 87 + d ∨ c.toNat = 55 + d)) := by
  refine and_congr_right fun hd => ?_
  obtain ⟨hlower, hupper⟩ := toNat_digitChar (Nat.lt_of_lt_of_le hd hbase)
  rw [← Char.toNat_inj, ← Char.toNat_inj, hlower, hupper]
  split <;> omega

/-- No digit is a blank or a sign. -/
theorem IsDigit.bounds {base d : Nat} {c : Char} (hbase : base ≤ 16) (h : IsDigit base c d) :
    48 ≤ c.toNat ∧ c.toNat ≤ 102 := by
  rw [isDigit_iff hbase] at h
  omega

theorem IsDigit.isBlank {base d : Nat} {c : Char} (hbase : base ≤ 16) (h : IsDigit base c d) :
    isBlank c = false := by
  have hbounds := h.bounds hbase
  simp only [Text.isBlank, Bool.or_eq_false_iff, Bool.and_eq_false_iff, decide_eq_false_iff_not,
    beq_eq_false_iff_ne]
  omega

theorem digit?_eq_some_iff {base d : Nat} {c : Char} (hbase : base ≤ 16) :
    digit? base c = some d ↔ IsDigit base c d := by
  rw [isDigit_iff hbase]
  simp only [digit?, Char.reduceToNat, Bool.and_eq_true, decide_eq_true_eq,
    Option.filter_eq_some_iff]
  split
  · simp only [Option.some.injEq]
    omega
  · split
    · simp only [Option.some.injEq]
      omega
    · split
      · simp only [Option.some.injEq]
        omega
      · simp only [reduceCtorEq, false_and, false_iff]
        omega

theorem below?_eq_some_iff {bound n m : Nat} : below? bound n = some m ↔ n = m ∧ m < bound := by
  unfold below?
  split
  · rw [Option.some.injEq]
    exact ⟨fun h => ⟨h, h ▸ ‹_›⟩, And.left⟩
  · refine iff_of_false nofun ?_
    rintro ⟨rfl, h⟩
    contradiction

/-- The product is below the bound where the sum is. -/
theorem push?_eq_some_iff {base bound n m : Nat} {c : Char} :
    push? base bound n c = some m ↔ ∃ d, digit? base c = some d ∧ base * n + d = m ∧ m < bound := by
  simp only [push?, Option.bind_eq_bind, Option.bind_eq_some_iff, below?_eq_some_iff]
  constructor
  · rintro ⟨_, ⟨rfl, -⟩, d, hd, hm⟩
    exact ⟨d, hd, hm⟩
  · rintro ⟨d, hd, hm, hlt⟩
    exact ⟨_, ⟨rfl, by omega⟩, d, hd, hm, hlt⟩

theorem foldlM_push?_append_singleton (base bound : Nat) (cs : List Char) (c : Char) :
    (cs ++ [c]).foldlM (push? base bound) 0 =
      (cs.foldlM (push? base bound) 0).bind fun n => push? base bound n c := by
  rw [List.foldlM_append]
  simp only [List.foldlM_cons, List.foldlM_nil, bind_pure]
  rfl

/-- No front of the digits stands for a larger number. -/
theorem Digits.foldlM_push? {base bound n : Nat} {cs : List Char} (hbase : base ≤ 16)
    (h : Digits base cs n) (hn : n < bound) : cs.foldlM (push? base bound) 0 = some n := by
  induction h with
  | one hc =>
      rw [← List.nil_append [_], foldlM_push?_append_singleton]
      exact push?_eq_some_iff.mpr ⟨_, (digit?_eq_some_iff hbase).mpr hc, by simp, hn⟩
  | @snoc cs n c d _ hc ih =>
      have hle : n ≤ base * n := Nat.le_mul_of_pos_left n (Nat.zero_lt_of_lt hc.1)
      rw [foldlM_push?_append_singleton, ih (by omega)]
      exact push?_eq_some_iff.mpr ⟨_, (digit?_eq_some_iff hbase).mpr hc, rfl, hn⟩

theorem digits_of_foldlM_push? {base bound n : Nat} {cs : List Char} (hbase : base ≤ 16)
    (hne : cs ≠ []) (h : cs.foldlM (push? base bound) 0 = some n) :
    Digits base cs n ∧ n < bound := by
  induction cs using List.reverseRecOn generalizing n with
  | nil => exact absurd rfl hne
  | append_singleton cs c ih =>
      rw [foldlM_push?_append_singleton] at h
      obtain ⟨m, hm, hc⟩ := Option.bind_eq_some_iff.mp h
      obtain ⟨d, hd, rfl, hlt⟩ := push?_eq_some_iff.mp hc
      rw [digit?_eq_some_iff hbase] at hd
      refine ⟨?_, hlt⟩
      cases cs with
      | nil =>
          cases hm
          rw [Nat.mul_zero, Nat.zero_add]
          exact .one hd
      | cons e es => exact .snoc (ih (List.cons_ne_nil e es) hm).1 hd

theorem Digits.ne_nil {base n : Nat} {cs : List Char} (h : Digits base cs n) : cs ≠ [] := by
  cases h <;> simp

theorem Digits.forall_isDigit {base n : Nat} {cs : List Char} (h : Digits base cs n) :
    ∀ c ∈ cs, ∃ d, IsDigit base c d := by
  induction h with
  | one hc => simpa using ⟨_, hc⟩
  | snoc _ hc ih =>
      intro e he
      rcases List.mem_append.mp he with he | he
      · exact ih e he
      · exact ⟨_, List.mem_singleton.mp he ▸ hc⟩

theorem parse?_eq_some_iff_digits {base bound n : Nat} {cs : List Char} (hbase : base ≤ 16) :
    parse? base bound cs = some n ↔ Digits base (unsigned cs) n ∧ n < bound := by
  unfold parse?
  cases unsigned cs with
  | nil => simpa using fun h => absurd rfl h.ne_nil
  | cons d ds =>
      exact ⟨digits_of_foldlM_push? hbase (List.cons_ne_nil d ds),
        fun h => h.1.foldlM_push? hbase h.2⟩

theorem digits_unsigned_iff {base n : Nat} {cs : List Char} (hbase : base ≤ 16) :
    Digits base (unsigned cs) n ↔ Spells base cs n := by
  unfold unsigned Spells
  split
  · rename_i ds
    have hplus : ¬ Digits base ('+' :: ds) n := by
      intro h
      obtain ⟨d, hd⟩ := h.forall_isDigit '+' List.mem_cons_self
      exact absurd (hd.bounds hbase).1 (by decide)
    simp [hplus]
  · rename_i hhead
    refine ⟨.inl, fun h => ?_⟩
    rcases h with h | ⟨ds, rfl, -⟩
    · exact h
    · exact absurd rfl (hhead ds)

theorem Digits.solid {base n : Nat} {cs : List Char} (hbase : base ≤ 16)
    (h : Digits base cs n) : Solid cs := by
  refine ⟨h.ne_nil, fun c hc => ?_⟩
  obtain ⟨d, hd⟩ := h.forall_isDigit c hc
  exact hd.isBlank hbase

theorem Spells.solid {base n : Nat} {cs : List Char} (hbase : base ≤ 16)
    (h : Spells base cs n) : Solid cs := by
  rcases h with h | ⟨ds, rfl, h⟩
  · exact h.solid hbase
  · exact ⟨List.cons_ne_nil _ _, List.forall_mem_cons.mpr ⟨by decide, (h.solid hbase).2⟩⟩

/-- Reading accepts exactly the spellings of the numbers below the bound. -/
theorem parse?_eq_some_iff {base bound n : Nat} {cs : List Char} (hbase : base ≤ 16) :
    parse? base bound cs = some n ↔ Spells base cs n ∧ n < bound := by
  rw [parse?_eq_some_iff_digits hbase, digits_unsigned_iff hbase]

theorem decimal?_eq_some_iff {bound n : Nat} {cs : List Char} :
    decimal? bound cs = some n ↔ Spells 10 cs n ∧ n < bound :=
  parse?_eq_some_iff (by decide)

theorem decimal?_eq_none_iff {bound : Nat} {cs : List Char} :
    decimal? bound cs = none ↔ ∀ n < bound, ¬ Spells 10 cs n := by
  rw [Option.eq_none_iff_forall_ne_some]
  refine forall_congr' fun n => ?_
  rw [ne_eq, decimal?_eq_some_iff, not_and']

theorem parse?_byte_iff {base : Nat} {cs : List Char} {b : UInt8} (hbase : base ≤ 16) :
    (parse? base 256 cs).map UInt8.ofNat = some b ↔ Spells base cs b.toNat := by
  rw [Option.map_eq_some_iff]
  constructor
  · rintro ⟨n, hn, rfl⟩
    obtain ⟨hspells, hlt⟩ := (parse?_eq_some_iff hbase).mp hn
    rwa [UInt8.toNat_ofNat_of_lt' hlt]
  · intro h
    exact ⟨_, (parse?_eq_some_iff hbase).mpr ⟨h, b.toNat_lt⟩, UInt8.ofNat_toNat⟩

/-- In decimal there are no letters. -/
theorem Spells.toNat_lt {n : Nat} {cs : List Char} (h : Spells 10 cs n) :
    ∀ c ∈ cs, c.toNat < 58 := by
  have hdigits : ∀ {ds : List Char}, Digits 10 ds n → ∀ c ∈ ds, c.toNat < 58 := by
    intro ds hds c hc
    obtain ⟨d, hd⟩ := hds.forall_isDigit c hc
    rw [isDigit_iff (by decide)] at hd
    omega
  rcases h with h | ⟨ds, rfl, h⟩
  · exact hdigits h
  · exact List.forall_mem_cons.mpr ⟨by decide, hdigits h⟩

/-- The letter behind the zero tells hexadecimal from decimal. -/
theorem byte?_eq_some_iff {cs : List Char} {b : UInt8} :
    byte? cs = some b ↔ SpellsByte cs b.toNat := by
  have hletter : ∀ {x : Char} {ds : List Char}, x = 'x' ∨ x = 'X' →
      (Spells 16 ds b.toNat ↔ SpellsByte ('0' :: x :: ds) b.toNat) := by
    intro x ds hx
    refine ⟨fun h => .inr ⟨x, ds, hx, rfl, h⟩, ?_⟩
    rintro (h | ⟨_, _, -, heq, h⟩)
    · have hlt := h.toNat_lt x (by simp)
      rcases hx with rfl | rfl <;> exact absurd hlt (by decide)
    · cases heq
      exact h
  unfold byte?
  split
  · rw [parse?_byte_iff (by decide), hletter (.inl rfl)]
  · rw [parse?_byte_iff (by decide), hletter (.inr rfl)]
  · rename_i hlower hupper
    rw [decimal?, parse?_byte_iff (by decide)]
    refine ⟨.inl, ?_⟩
    rintro (h | ⟨_, ds, rfl | rfl, heq, -⟩)
    · exact h
    · exact absurd heq (hlower ds)
    · exact absurd heq (hupper ds)

theorem SpellsByte.solid {n : Nat} {cs : List Char} (h : SpellsByte cs n) : Solid cs := by
  rcases h with h | ⟨x, ds, hx, rfl, h⟩
  · exact h.solid (by decide)
  · have hblank : isBlank x = false := by rcases hx with rfl | rfl <;> decide
    have hds := (h.solid (by decide)).2
    exact ⟨List.cons_ne_nil _ _, List.forall_mem_cons.mpr
      ⟨by decide, List.forall_mem_cons.mpr ⟨hblank, hds⟩⟩⟩

theorem digits_toDigits (n : Nat) : Digits 10 (Nat.toDigits 10 n) n := by
  induction n using Nat.strongRecOn with
  | ind n ih =>
      by_cases h : n < 10
      · rw [Nat.toDigits_of_lt_base h]
        exact .one ⟨h, .inl rfl⟩
      · have hle : 10 ≤ n := Nat.le_of_not_lt h
        rw [Nat.toDigits_of_base_le (by decide) hle]
        have hsnoc := Digits.snoc (ih (n / 10) (by omega))
          (⟨Nat.mod_lt n (by decide), .inl rfl⟩ : IsDigit 10 (Nat.digitChar (n % 10)) (n % 10))
        rwa [Nat.div_add_mod] at hsnoc

theorem digits_toString (n : Nat) : Digits 10 (toString n).toList n := by
  rw [Nat.toString_eq_repr, Nat.toList_repr]
  exact digits_toDigits n

end WireCapture.Text.Numeral
