import WireCapture.Word

/-!
# Masks

Some captures have every byte combined with one key by exclusive or. Masking is
its own inverse.
-/
namespace WireCapture.ByteMask

def combine (key : UInt8) (bs : Bytes) : Bytes := bs.map (· ^^^ key)

/-- Combines the bytes of a buffer in place, from a position on. -/
def combineFrom (key : UInt8) (i : Nat) (buffer : Array UInt8) : Array UInt8 :=
  if h : i < buffer.size then combineFrom key (i + 1) (buffer.set i (buffer[i] ^^^ key))
  else buffer
termination_by buffer.size - i

/-- Works in place. Leaves the bytes alone when the key is zero. -/
def remove (key : UInt8) (bs : Bytes) : Bytes :=
  if key = 0 then bs else (combineFrom key 0 bs.toArray).toList

/-- What the position has passed stays, and the rest is combined. -/
theorem toList_combineFrom (key : UInt8) (i : Nat) (buffer : Array UInt8) :
    (combineFrom key i buffer).toList =
      buffer.toList.take i ++ combine key (buffer.toList.drop i) := by
  fun_induction combineFrom key i buffer with
  | case1 i buffer h ih =>
      have hlt : i < buffer.toList.length := h
      have hpassed : (buffer.toList.set i (buffer[i] ^^^ key)).take (i + 1) =
          buffer.toList.take i ++ [buffer[i] ^^^ key] := by
        rw [List.take_succ_eq_append_getElem (by simpa using hlt),
          List.take_set_of_le (Nat.le_refl i), List.getElem_set_self]
      rw [ih, Array.toList_set, hpassed, List.drop_set_of_lt (Nat.lt_succ_self i),
        List.append_assoc, List.drop_eq_getElem_cons hlt]
      rfl
  | case2 i buffer h =>
      have hle : buffer.toList.length ≤ i := Nat.le_of_not_lt h
      rw [List.take_of_length_le hle, List.drop_of_length_le hle, combine, List.map_nil,
        List.append_nil]

theorem remove_eq_combine (key : UInt8) (bs : Bytes) : remove key bs = combine key bs := by
  unfold remove
  split
  · rename_i h
    simp [h, combine]
  · rw [toList_combineFrom]
    rfl

end WireCapture.ByteMask
