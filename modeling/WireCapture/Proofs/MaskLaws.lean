import WireCapture.Proofs.MaskKey

/-!
# Laws of masks

Masking changes every byte by itself, so masks add up under exclusive or and a capture can
be unmasked piece by piece. The form that copies and the form that works in place come to
the same, and settings unmask with their key, or with zero.
-/
namespace WireCapture.ByteMask

/-- What it is to mask bytes with a key. -/
structure Masks (mask : UInt8 → Bytes → Bytes) : Prop where
  length : ∀ k bs, (mask k bs).length = bs.length
  byte : ∀ k bs (i : Nat), (mask k bs)[i]? = bs[i]?.map (· ^^^ k)
  zero : ∀ bs, mask 0 bs = bs
  twice : ∀ k bs, mask k (mask k bs) = bs
  after : ∀ j k bs, mask k (mask j bs) = mask (j ^^^ k) bs
  append : ∀ k bs cs, mask k (bs ++ cs) = mask k bs ++ mask k cs
  flatten : ∀ k (pieces : List Bytes), mask k pieces.flatten = (pieces.map (mask k)).flatten

theorem masks_combine : Masks combine where
  length _ _ := List.length_map _
  byte _ _ _ := List.getElem?_map
  zero := combine_zero
  twice := combine_combine
  after := combine_after
  append _ _ _ := List.map_append
  flatten _ _ := List.map_flatten

/-- The loop over the positions of a buffer and its shortcut for the key zero do what a
copy does. -/
theorem remove_eq : remove = combine := funext fun k => funext fun bs => remove_eq_combine k bs

/-- Both forms mask, and with any key they come to the same bytes. Settings unmask with
their key, and with zero if they have none. -/
theorem both_forms_mask :
    Masks combine ∧ Masks remove ∧ (∀ k bs, remove k bs = combine k bs) ∧
    ∀ (s : Settings) (data : Bytes), s.plain data = combine (s.xorKey.getD 0) data := by
  refine ⟨masks_combine, ?_, remove_eq_combine, Settings.plain_eq_combine⟩
  rw [remove_eq]
  exact masks_combine

end WireCapture.ByteMask
