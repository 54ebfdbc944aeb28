import WireCapture.Entity.Routine

/-!
# Outcomes of routines

Routines may call each other without an end, so calls are followed to some depth only. A
decoding yields an outcome if it has this outcome whatever the calls below some depth come
to. Then it has it for every greater depth, and it has no other. Record readers, which
call for children only, yield what decoding with the levels counted down gives.
-/
namespace WireCapture

variable {δ : Type}

namespace Calls

/-- Calls followed one deeper are calls with one more round at the bottom. -/
theorem upTo_succ (routines : δ → Routine δ) (beyond : Calls δ) (depth : Nat) :
    upTo routines beyond (depth + 1) =
      upTo routines (fun name => routines name beyond) depth := by
  induction depth with
  | zero => rfl
  | succ depth ih =>
      funext name
      change routines name (upTo routines beyond (depth + 1)) = _
      rw [ih]
      rfl

end Calls

namespace DecodeContext

section Outcomes

variable {routines : δ → Routine δ} {ctx : DecodeContext δ} {type : TypeRef} {data : Bytes}
  {o o' : DecodeOutcome} {depth depth' : Nat}

/-- The outcome of a decoding that follows calls to the given depth and needs no more. -/
def YieldsWithin (routines : δ → Routine δ) (ctx : DecodeContext δ) (type : TypeRef)
    (data : Bytes) (depth : Nat) (o : DecodeOutcome) : Prop :=
  ∀ beyond, (ctx.decodeAs (Calls.upTo routines beyond depth) type).run data = o

/-- The outcome of a decoding that follows calls as deep as it takes. -/
def Yields (routines : δ → Routine δ) (ctx : DecodeContext δ) (type : TypeRef)
    (data : Bytes) (o : DecodeOutcome) : Prop :=
  ∃ depth, YieldsWithin routines ctx type data depth o

theorem YieldsWithin.mono (h : YieldsWithin routines ctx type data depth o)
    (hle : depth ≤ depth') : YieldsWithin routines ctx type data depth' o := by
  induction hle with
  | refl => exact h
  | step _ ih =>
      intro beyond
      rw [Calls.upTo_succ]
      exact ih _

theorem Yields.unique (h : Yields routines ctx type data o)
    (h' : Yields routines ctx type data o') : o = o' := by
  obtain ⟨depth, hdepth⟩ := h
  obtain ⟨depth', hdepth'⟩ := h'
  have hleft := hdepth.mono (Nat.le_max_left depth depth')
  have hright := hdepth'.mono (Nat.le_max_right depth depth')
  -- Nothing is called below the greater depth, so anything may stand there.
  have beyond : Calls δ := fun _ _ => throw ⟨.nestingTooDeep 0, none⟩
  exact (hleft beyond).symm.trans (hright beyond)

end Outcomes

section Records

variable {types : TagRegistry RecordReader} {objects : ObjectMapping} {limit level room : Nat}
  {o : DecodeOutcome}

theorem decode_routine (call : Calls RecordReader) (tag : Tag) :
    ({ types := types.mapping, objects, level, limit } : DecodeContext RecordReader).decode
        (fun read => RecordReader.routine read call) tag =
      Decoder.entity { types, objects, limit } level
        (({ types := types.mapping, objects, level, limit } :
          DecodeContext RecordReader).nested?.map fun inner => inner.decode call) tag := rfl

/-- Record readers are called once for each level that is left, and once more. -/
theorem decode_upTo_routine {beyond : Calls RecordReader} {depth : Nat}
    (hr : level + room = limit) (hd : room < depth) :
    ({ types := types.mapping, objects, level, limit } : DecodeContext RecordReader).decode
        (Calls.upTo RecordReader.routine beyond depth) =
      Decoder.within { types, objects, limit } room := by
  induction room generalizing level depth with
  | zero =>
      obtain ⟨depth, rfl⟩ := Nat.exists_eq_add_one_of_ne_zero (Nat.ne_zero_of_lt hd)
      obtain rfl : level = limit := hr
      funext tag
      refine (decode_routine _ tag).trans ?_
      rw [nested?, if_neg (Nat.lt_irrefl level)]
      rfl
  | succ room ih =>
      obtain ⟨depth, rfl⟩ := Nat.exists_eq_add_one_of_ne_zero (Nat.ne_zero_of_lt hd)
      have hlt : level < limit := by omega
      have hinner : level + 1 + room = limit := by omega
      have hlevel : limit - (room + 1) = level := by omega
      have hchildren := ih hinner (Nat.lt_of_succ_lt_succ hd)
      funext tag
      refine (decode_routine _ tag).trans ?_
      rw [nested?, if_pos hlt, Option.map_some, hchildren, Decoder.within, hlevel]

/-- Decoding with record readers always has an outcome. -/
theorem yields_of_records (type : TypeRef) (data : Bytes) :
    Yields RecordReader.routine { types := types.mapping, objects, limit } type data
      ((type.decoder { types, objects, limit }).run data) := by
  refine ⟨limit + 1, fun beyond => ?_⟩
  rw [decodeAs, decode_upTo_routine (Nat.zero_add limit) (Nat.lt_succ_self limit),
    type.decoder_eq]
  rfl

theorem yields_records_iff (type : TypeRef) (data : Bytes) :
    Yields RecordReader.routine { types := types.mapping, objects, limit } type data o ↔
      o = (type.decoder { types, objects, limit }).run data := by
  constructor
  · intro h
    exact h.unique (yields_of_records type data)
  · rintro rfl
    exact yields_of_records type data

end Records

end DecodeContext

end WireCapture
