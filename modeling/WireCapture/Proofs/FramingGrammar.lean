import Mathlib.Algebra.GroupWithZero.Nat
import WireCapture.Proofs.CutCapture

/-!
# The framing grammar

Which byte strings begin with a frame. The opcode, and in front of a chunk its length,
say how many bytes a frame takes; a byte string that has them begins with a frame, and
what follows does not matter. Otherwise the first field that does not fit into the bytes
ends the reading, with its width and with the bytes that are left for it.
-/
namespace WireCapture

/-- Of fields of the given widths, one after the other, the first that does not fit into
`length` bytes: its width, and the bytes left for it. -/
def firstMissing : (widths : List Nat) → (length : Nat) → Option (Nat × Nat)
  | [], _ => none
  | width :: widths, length =>
      if length < width then some (width, length) else firstMissing widths (length - width)

section Missing

variable {widths more : List Nat} {length needed remaining : Nat}

theorem firstMissing_eq_none_iff : firstMissing widths length = none ↔ widths.sum ≤ length := by
  induction widths generalizing length with
  | nil => simp [firstMissing]
  | cons width widths ih =>
      rw [firstMissing, List.sum_cons]
      split
      · simp only [reduceCtorEq, false_iff]
        omega
      · rw [ih]
        omega

theorem firstMissing_append (h : widths.sum ≤ length) :
    firstMissing (widths ++ more) length = firstMissing more (length - widths.sum) := by
  induction widths generalizing length with
  | nil => rfl
  | cons width widths ih =>
      rw [List.sum_cons] at h ⊢
      rw [List.cons_append, firstMissing, if_neg (by omega), ih (by omega), Nat.sub_sub]

theorem firstMissing_append_of_some (h : firstMissing widths length = some (needed, remaining)) :
    firstMissing (widths ++ more) length = some (needed, remaining) := by
  induction widths generalizing length with
  | nil => cases h
  | cons width widths ih =>
      rw [firstMissing] at h
      rw [List.cons_append, firstMissing]
      split at h
      · rename_i hlt
        rw [if_pos hlt, h]
      · rename_i hlt
        rw [if_neg hlt, ih h]

/-- The fields before it fit, and it does not. -/
theorem firstMissing_eq_some_iff : firstMissing widths length = some (needed, remaining) ↔
    ∃ front back, widths = front ++ needed :: back ∧ remaining < needed ∧
      length = front.sum + remaining := by
  constructor
  · intro h
    induction widths generalizing length with
    | nil => cases h
    | cons width widths ih =>
        rw [firstMissing] at h
        split at h
        · rename_i hlt
          cases h
          exact ⟨[], widths, rfl, hlt, (Nat.zero_add _).symm⟩
        · obtain ⟨front, back, rfl, hlt, hlength⟩ := ih h
          refine ⟨width :: front, back, rfl, hlt, ?_⟩
          rw [List.sum_cons]
          omega
  · intro h
    obtain ⟨front, back, rfl, hlt, rfl⟩ := h
    rw [firstMissing_append (Nat.le_add_right _ _), Nat.add_sub_cancel_left, firstMissing,
      if_pos hlt]

end Missing

namespace Reader

variable {α β : Type} {r : Reader α} {c : Cursor} {widths more : List Nat}

/-- How reading fields of the given widths from a cursor on ends. -/
inductive Fills (c : Cursor) (widths : List Nat) : EStateM.Result Fault Cursor α → Prop
  | ok {a : α} {c' : Cursor} : widths.sum + c'.remaining = c.remaining →
      Fills c widths (.ok a c')
  | short {needed remaining : Nat} {c' : Cursor} :
      firstMissing widths c.remaining = some (needed, remaining) →
      Fills c widths (.error (.unexpectedEnd needed remaining) c')

theorem Fills.pure (a : α) (c : Cursor) : Fills c [] ((Pure.pure a : Reader α) c) :=
  .ok (Nat.zero_add _)

theorem Fills.bind {f : α → Reader β} (h : Fills c widths (r c))
    (k : ∀ a c', r c = .ok a c' → Fills c' more (f a c')) :
    Fills c (widths ++ more) ((r >>= f) c) := by
  cases hr : r c with
  | ok a c' =>
      rw [hr] at h
      cases h with
      | ok hsum =>
          have hle : widths.sum ≤ c.remaining := by omega
          have hrest : c.remaining - widths.sum = c'.remaining := by omega
          have hk := k a c' hr
          rw [bind_of_ok hr]
          generalize f a c' = x at hk ⊢
          cases hk with
          | ok hmore =>
              refine .ok ?_
              rw [List.sum_append]
              omega
          | short hmissing =>
              refine .short ?_
              rw [firstMissing_append hle, hrest, hmissing]
  | error e c' =>
      rw [hr] at h
      rw [bind_of_error hr]
      cases h with
      | short hmissing => exact .short (firstMissing_append_of_some hmissing)

theorem Fills.map {g : α → β} (h : Fills c widths (r c)) : Fills c widths ((g <$> r) c) := by
  rw [map_eq_pure_bind, ← List.append_nil widths]
  exact h.bind fun a c' _ => .pure (g a) c'

theorem fills_take (n : Nat) (c : Cursor) : Fills c [n] (take n c) := by
  by_cases h : n ≤ c.remaining
  · rw [take_ok h]
    refine .ok ?_
    simp only [Cursor.advance, Cursor.remaining, List.length_drop, List.sum_singleton] at h ⊢
    omega
  · rw [take_error (Nat.lt_of_not_le h)]
    exact .short (if_pos (Nat.lt_of_not_le h))

theorem fills_u8 (c : Cursor) : Fills c [1] (u8 c) := (fills_take 1 c).map.map

theorem fills_u16 (c : Cursor) : Fills c [2] (u16 c) := (fills_take 2 c).map.map

theorem fills_u32 (c : Cursor) : Fills c [4] (u32 c) := (fills_take 4 c).map.map

end Reader

namespace Frame

/-- The widths of the fields of a payload. The width of a chunk stands in the field before
it; that field does not fit where the width is cut off. -/
def Kind.widths (payload : Bytes) : Kind → List Nat
  | .start => [1, 1, 4, nameWidth, 1, 3]
  | .accept => [1, 1]
  | .data => [1, 1, 2, 2, Word.value ((payload.drop 4).take 2)]
  | .ack => [1, 1, 2]
  | .done => [1]
  | .cancel => [1, 1]
  | .abort => [1, 1]

open Reader in
theorem fills_payloadReader (k : Kind) (payload : Bytes) :
    Fills (.ofBytes payload) (k.widths payload) (payloadReader k (.ofBytes payload)) := by
  cases k with
  | start =>
      refine (fills_u8 _).bind fun _ _ _ => (fills_u8 _).bind fun _ _ _ => ?_
      refine (fills_u32 _).bind fun _ _ _ => (fills_take nameWidth _).map.bind fun _ _ _ => ?_
      refine (fills_u8 _).bind fun _ _ _ => ?_
      exact (fills_take 3 _).bind fun _ c _ => .pure _ c
  | accept => exact (fills_u8 _).bind fun _ _ _ => (fills_u8 _).bind fun _ c _ => .pure _ c
  | data =>
      refine (fills_u8 _).bind fun recvId _ hrecv => (fills_u8 _).bind fun token _ htoken => ?_
      refine (fills_u16 _).bind fun seq _ hseq => (fills_u16 _).bind fun length c hlength => ?_
      have hpasses := (((passes_of_u8 hrecv).trans (passes_of_u8 htoken)).trans
        (passes_of_u16 hseq)).trans (passes_of_u16 hlength)
      have hfield : (payload.drop 4).take 2 = Word.bytes 2 length.toNat := by
        change ((Cursor.ofBytes payload).rest.drop 4).take 2 = _
        rw [hpasses.rest]
        rfl
      have hwidth : Word.value ((payload.drop 4).take 2) = length.toNat := by
        rw [hfield, Word.value_bytes]
        exact Nat.mod_eq_of_lt length.toNat_lt
      rw [hwidth]
      exact (fills_take length.toNat c).bind fun _ c _ => .pure _ c
  | ack =>
      refine (fills_u8 _).bind fun _ _ _ => (fills_u8 _).bind fun _ _ _ => ?_
      exact (fills_u16 _).bind fun _ c _ => .pure _ c
  | done => exact (fills_u8 _).map
  | cancel => exact (fills_u8 _).bind fun _ _ _ => (fills_u8 _).bind fun _ c _ => .pure _ c
  | abort => exact (fills_u8 _).bind fun _ _ _ => (fills_u8 _).bind fun _ c _ => .pure _ c

theorem sum_widths {k : Kind} {payload : Bytes} {f : Frame} (h : ofPayload k payload = .ok f) :
    (k.widths payload).sum = f.payloadSize ∧ f.payloadSize ≤ payload.length := by
  have hfills := fills_payloadReader k payload
  unfold ofPayload at h
  split at h
  · rename_i c hread
    cases h
    obtain ⟨-, body, himage, hpasses⟩ := image_of_payloadReader hread
    have hlength := congrArg List.length hpasses.rest
    rw [List.length_append, himage.length] at hlength
    rw [hread] at hfills
    cases hfills with
    | ok hsum =>
        simp only [Cursor.remaining, Cursor.ofBytes] at hsum hlength
        omega
  · cases h

theorem firstMissing_widths {k : Kind} {payload : Bytes} {e : Fault}
    (h : ofPayload k payload = .error e) : ∃ needed remaining,
      firstMissing (k.widths payload) payload.length = some (needed, remaining) ∧
        e = .unexpectedEnd needed remaining := by
  have hfills := fills_payloadReader k payload
  unfold ofPayload at h
  split at h
  · cases h
  · rename_i hread
    cases h
    rw [hread] at hfills
    cases hfills with
    | short hmissing => exact ⟨_, _, hmissing, rfl⟩

/-- Bytes of a frame, by its opcode and by the length in front of a chunk. -/
def Kind.need (bs : Bytes) : Kind → Nat
  | .start => 139
  | .accept => 3
  | .data => 7 + Word.value ((bs.drop 5).take 2)
  | .ack => 5
  | .done => 2
  | .cancel => 3
  | .abort => 3

theorem Kind.need_eq (k : Kind) (payload : Bytes) :
    k.need (k.opcode :: payload) = 1 + (k.widths payload).sum := by
  cases k with
  | data =>
      change 7 + Word.value ((payload.drop 4).take 2) = _
      simp only [widths, List.sum_cons, List.sum_nil]
      omega
  | _ => rfl

theorem Kind.exists_opcode {code : UInt8} (h : code ≤ 6) : ∃ k : Kind, k.opcode = code := by
  have hall : ∀ n < 7, ∃ k ∈ Kind.all, k.opcode = UInt8.ofNat n := by decide
  obtain ⟨k, -, hk⟩ := hall code.toNat (Nat.lt_succ_of_le h)
  rw [UInt8.ofNat_toNat] at hk
  exact ⟨k, hk⟩

theorem Kind.opcode_le (k : Kind) : k.opcode ≤ 6 := by
  cases k <;> decide

theorem Kind.ofOpcode?_eq_none_iff {code : UInt8} : ofOpcode? code = none ↔ 6 < code := by
  rw [← UInt8.not_le]
  constructor
  · intro h hle
    obtain ⟨k, rfl⟩ := exists_opcode hle
    rw [ofOpcode?_opcode] at h
    cases h
  · intro h
    cases hcode : ofOpcode? code with
    | none => rfl
    | some k =>
        rw [← opcode_of_ofOpcode? hcode] at h
        exact absurd k.opcode_le h

section Grammar

variable {bs payload : Bytes} {k : Kind} {f : Frame} {n needed remaining : Nat}

theorem ofBytes_of_missing
    (h : firstMissing (k.widths payload) payload.length = some (needed, remaining)) :
    ofBytes (k.opcode :: payload) = .error (.unexpectedEnd needed remaining) := by
  cases hpayload : ofPayload k payload with
  | ok f =>
      obtain ⟨hsum, hle⟩ := sum_widths hpayload
      rw [firstMissing_eq_none_iff.mpr (hsum.trans_le hle)] at h
      cases h
  | error e =>
      obtain ⟨needed', remaining', hmissing, rfl⟩ := firstMissing_widths hpayload
      cases h.symm.trans hmissing
      simp only [ofBytes, Kind.ofOpcode?_opcode, hpayload]

theorem ofBytes_eq_unexpectedEnd_iff : ofBytes bs = .error (.unexpectedEnd needed remaining) ↔
    bs = [] ∧ needed = 1 ∧ remaining = 0 ∨ ∃ (k : Kind) (payload : Bytes),
      bs = k.opcode :: payload ∧
        firstMissing (k.widths payload) payload.length = some (needed, remaining) := by
  constructor
  · intro h
    unfold ofBytes at h
    split at h
    · cases h
      exact .inl ⟨rfl, rfl, rfl⟩
    · rename_i code payload
      split at h
      · cases h
      · rename_i k hk
        split at h
        · cases h
        · rename_i hpayload
          cases h
          obtain ⟨_, _, hmissing, ⟨⟩⟩ := firstMissing_widths hpayload
          rw [← Kind.opcode_of_ofOpcode? hk]
          exact .inr ⟨k, payload, rfl, hmissing⟩
  · intro h
    rcases h with ⟨rfl, rfl, rfl⟩ | ⟨k, payload, rfl, hmissing⟩
    · rfl
    · exact ofBytes_of_missing hmissing

theorem ofBytes_eq_unknownOpcode_iff {code : UInt8} :
    ofBytes bs = .error (.unknownOpcode code) ↔ 6 < code ∧ ∃ payload, bs = code :: payload := by
  constructor
  · intro h
    rcases ofBytes_fault h with hshort | ⟨_, payload, rfl, hcode, ⟨⟩⟩
    · cases hshort
    · exact ⟨Kind.ofOpcode?_eq_none_iff.mp hcode, payload, rfl⟩
  · intro h
    obtain ⟨hcode, payload, rfl⟩ := h
    exact ofBytes_unknown (Kind.ofOpcode?_eq_none_iff.mpr hcode) payload

theorem need_of_ofBytes (h : ofBytes (k.opcode :: payload) = .ok (f, n)) :
    n = k.need (k.opcode :: payload) ∧ n = f.wireSize ∧ n ≤ (k.opcode :: payload).length := by
  obtain rfl := ofBytes_size h
  refine ⟨?_, rfl, size_le_length h⟩
  simp only [ofBytes, Kind.ofOpcode?_opcode] at h
  split at h
  · rename_i hpayload
    cases h
    rw [k.need_eq, (sum_widths hpayload).1, wireSize]
  · cases h

theorem exists_missing (h : payload.length + 1 < k.need (k.opcode :: payload)) :
    ∃ needed remaining,
      firstMissing (k.widths payload) payload.length = some (needed, remaining) := by
  rw [k.need_eq] at h
  cases hmissing : firstMissing (k.widths payload) payload.length with
  | none =>
      have hle := firstMissing_eq_none_iff.mp hmissing
      omega
  | some p => exact ⟨p.1, p.2, rfl⟩

theorem exists_ofBytes_iff : (∃ f n, ofBytes (k.opcode :: payload) = .ok (f, n)) ↔
    k.need (k.opcode :: payload) ≤ (k.opcode :: payload).length := by
  constructor
  · intro h
    obtain ⟨f, n, hread⟩ := h
    obtain ⟨rfl, -, hle⟩ := need_of_ofBytes hread
    exact hle
  · intro h
    rw [k.need_eq, List.length_cons] at h
    cases hpayload : ofPayload k payload with
    | ok f =>
        refine ⟨f, f.wireSize, ?_⟩
        simp only [ofBytes, Kind.ofOpcode?_opcode, hpayload]
    | error e =>
        obtain ⟨_, _, hmissing, -⟩ := firstMissing_widths hpayload
        rw [firstMissing_eq_none_iff.mpr (by omega)] at hmissing
        cases hmissing

theorem ofBytes_of_take_eq {other : Bytes} (h : ofBytes bs = .ok (f, n))
    (hother : other.take n = bs.take n) : ofBytes other = ofBytes bs := by
  have hpart : ofBytes (other.take n) = .ok (f, n) := by
    rw [hother]
    exact ofBytes_take h (Nat.le_refl n)
  rw [h]
  exact ofBytes_of_part (List.take_prefix n other) hpart

/-- One byte is missing and nothing is left also where a frame ends in front of a field of
one byte. -/
theorem ofBytes_eq_unexpectedEnd_one_iff : ofBytes bs = .error (.unexpectedEnd 1 0) ↔
    bs = [] ∨ ∃ (k : Kind) (payload : Bytes) (front back : List Nat),
      bs = k.opcode :: payload ∧ k.widths payload = front ++ 1 :: back ∧
        payload.length = front.sum := by
  simp only [ofBytes_eq_unexpectedEnd_iff, firstMissing_eq_some_iff, and_true, Nat.zero_lt_one,
    true_and, Nat.add_zero, exists_and_left]

/-- Bytes begin with a frame exactly if the opcode is known and all the bytes that it, and
the length of a chunk, ask for are there. -/
theorem ofBytes_grammar (bs : Bytes) :
    (ofBytes bs = .error (.unexpectedEnd 1 0) ↔
      bs = [] ∨ ∃ (k : Kind) (payload : Bytes) (front back : List Nat),
        bs = k.opcode :: payload ∧ k.widths payload = front ++ 1 :: back ∧
          payload.length = front.sum) ∧
    (∀ code, ofBytes bs = .error (.unknownOpcode code) ↔
      6 < code ∧ ∃ payload, bs = code :: payload) ∧
    ∀ code payload, bs = code :: payload → code ≤ 6 → ∃ k : Kind, k.opcode = code ∧
      ((∃ f n, ofBytes bs = .ok (f, n)) ↔ k.need bs ≤ bs.length) ∧
      (∀ f n, ofBytes bs = .ok (f, n) → n = k.need bs ∧ n = f.wireSize ∧ n ≤ bs.length) ∧
      (k.need bs ≤ bs.length → ∀ other : Bytes, other.take (k.need bs) = bs.take (k.need bs) →
        ofBytes other = ofBytes bs) ∧
      (bs.length < k.need bs → ∃ needed remaining,
        ofBytes bs = .error (.unexpectedEnd needed remaining)) := by
  refine ⟨ofBytes_eq_unexpectedEnd_one_iff, fun _ => ofBytes_eq_unknownOpcode_iff, ?_⟩
  intro code payload hbs hcode
  obtain ⟨k, rfl⟩ := Kind.exists_opcode hcode
  subst hbs
  refine ⟨k, rfl, exists_ofBytes_iff, fun _ _ => need_of_ofBytes, ?_, ?_⟩
  · intro hneed other hother
    obtain ⟨f, n, hread⟩ := exists_ofBytes_iff.mpr hneed
    rw [← (need_of_ofBytes hread).1] at hother
    exact ofBytes_of_take_eq hread hother
  · intro hshort
    obtain ⟨needed, remaining, hmissing⟩ := exists_missing hshort
    exact ⟨needed, remaining, ofBytes_of_missing hmissing⟩

/-- A chunk of two bytes, whatever follows it, and a `done` without its session. -/
theorem ofBytes_grammar_chunk_and_done :
    (∀ tail, ofBytes ([2, 9, 1, 7, 0, 2, 0, 65, 66] ++ tail) = .ok (.data 9 1 7 [65, 66], 9)) ∧
    (.data 9 1 7 [65, 66] : Frame).wireSize = 9 ∧
    ∃ needed remaining, ofBytes [4] = .error (.unexpectedEnd needed remaining) := by
  obtain ⟨-, -, hchunk⟩ := ofBytes_grammar [2, 9, 1, 7, 0, 2, 0, 65, 66]
  obtain ⟨k, hk, -, hsize, hsame, -⟩ := hchunk 2 _ rfl (by decide)
  obtain rfl : k = .data := by cases k <;> first | rfl | cases hk
  have hread : ofBytes [2, 9, 1, 7, 0, 2, 0, 65, 66] = .ok (.data 9 1 7 [65, 66], 9) := rfl
  obtain ⟨-, -, hdone⟩ := ofBytes_grammar [4]
  obtain ⟨k', hk', -, -, -, hshort⟩ := hdone 4 _ rfl (by decide)
  obtain rfl : k' = .done := by cases k' <;> first | rfl | cases hk'
  refine ⟨fun tail => ?_, (hsize _ _ hread).2.1.symm, hshort (by decide)⟩
  rw [← hread]
  exact hsame (by decide) _ rfl

/-- A `done` without its session fails as no bytes at all do. -/
theorem unexpectedEnd_one_of_lone_done :
    ¬ (ofBytes [4] = .error (.unexpectedEnd 1 0) ↔ ([4] : Bytes) = []) := by
  intro h
  cases h.mp rfl

end Grammar

end Frame

end WireCapture
