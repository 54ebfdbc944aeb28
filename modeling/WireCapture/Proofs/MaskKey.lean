import WireCapture.Proofs.OptionLines

/-!
# The key of a mask

Which key an options text comes to: the last line that names a key decides, whatever
stands on other lines, and a text that names none leaves captures unmasked, as the key
zero does. Masking with one key twice gives back the capture.
-/
namespace WireCapture

namespace ByteMask

theorem combine_zero (bs : Bytes) : combine 0 bs = bs := by
  simp [combine]

theorem combine_after (j k : UInt8) (bs : Bytes) :
    combine k (combine j bs) = combine (j ^^^ k) bs := by
  have hbyte : (fun b => b ^^^ k) ∘ (fun b => b ^^^ j) = fun b => b ^^^ (j ^^^ k) :=
    funext fun b => UInt8.xor_assoc b j k
  rw [combine, combine, List.map_map, hbyte, combine]

theorem combine_combine (key : UInt8) (bs : Bytes) : combine key (combine key bs) = bs := by
  rw [combine_after, UInt8.xor_self, combine_zero]

end ByteMask

/-- The key that a line names. Lines without a readable key name none. -/
def Directive.key? : Directive → Option UInt8
  | .xorKey key => some key
  | _ => none

namespace Settings

/-- The key that is named last. -/
def effectiveKey (text : String) : UInt8 :=
  ((Directive.ofText text).filterMap Directive.key?).getLast?.getD 0

/-- The key in use, where no key is the key zero. -/
def key (s : Settings) : UInt8 := s.xorKey.getD 0

theorem key_apply (s : Settings) (d : Directive) : (d.apply s).key = d.key?.getD s.key := by
  cases d with
  | xorKey key =>
      by_cases h : key = 0
      · simp [Directive.apply, Directive.key?, Settings.key, h]
      · simp [Directive.apply, Directive.key?, Settings.key, h]
  | _ => rfl

theorem key_foldl (ds : List Directive) (s : Settings) :
    (ds.foldl Directive.apply s).key = (ds.filterMap Directive.key?).getLast?.getD s.key :=
  foldl_latest key_apply ds s

/-- Parsing comes to the key that is named last. -/
theorem key_parse (text : String) : (parse text).key = effectiveKey text := key_foldl _ _

theorem plain_eq_combine (s : Settings) (data : Bytes) :
    s.plain data = ByteMask.combine s.key data := by
  unfold plain key
  cases s.xorKey with
  | none => exact (ByteMask.combine_zero data).symm
  | some key => rfl

end Settings

end WireCapture
