import Mathlib.Data.String.Basic
import WireCapture.Proofs.Utf8

/-!
# The order of UTF-8 text

Texts compare by their code points as their bytes in UTF-8 do: a smaller character has the
smaller bytes, whatever follows either of them.
-/
namespace WireCapture.Text.Utf8

/-- A smaller character has the smaller bytes, in front of any others. -/
theorem encodeChar_append_lt {c d : Char} (h : c < d) (rest rest' : Bytes) :
    String.utf8EncodeChar c ++ rest < String.utf8EncodeChar d ++ rest' := by
  have hlt : c.toNat < d.toNat := h
  have hc := toNat_valid c
  have hd := toNat_valid d
  have hn : ∀ e : Char, e.val.toNat = e.toNat := fun _ => rfl
  unfold String.utf8EncodeChar
  simp only [hn]
  repeat' split
  -- Of two lengths the longer one has the larger first byte; at one length the bytes are the
  -- digits of the code point, the highest first.
  all_goals
    simp only [List.cons_append, List.nil_append, List.cons_lt_cons_iff, UInt8.lt_iff_toNat_lt,
      ← UInt8.toNat_inj, UInt8.toNat_ofNat']
    simp (disch := omega) only [Nat.mod_eq_of_lt]
    omega

theorem flatMap_encodeChar_lt {cs ds : List Char} (h : cs < ds) :
    cs.flatMap String.utf8EncodeChar < ds.flatMap String.utf8EncodeChar := by
  induction h with
  | @nil d ds =>
      obtain ⟨b, bs, hbs⟩ := List.exists_cons_of_ne_nil (String.utf8EncodeChar_ne_nil (c := d))
      rw [List.flatMap_nil, List.flatMap_cons, hbs, List.cons_append]
      exact List.nil_lt_cons _ _
  | cons _ ih =>
      rw [List.flatMap_cons, List.flatMap_cons]
      exact List.append_left_lt ih
  | rel h =>
      rw [List.flatMap_cons, List.flatMap_cons]
      exact encodeChar_append_lt h _ _

/-- Texts compare as their bytes do. -/
theorem encode_lt_encode_iff {s t : String} : encode s < encode t ↔ s < t := by
  refine ⟨fun h => ?_, fun h => flatMap_encodeChar_lt (String.lt_iff_toList_lt.mp h)⟩
  rcases lt_trichotomy s t with hlt | rfl | hgt
  · exact hlt
  · exact absurd h (List.lt_irrefl _)
  · exact absurd h (List.lt_asymm (flatMap_encodeChar_lt (String.lt_iff_toList_lt.mp hgt)))

end WireCapture.Text.Utf8
