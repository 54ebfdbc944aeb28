import WireCapture.Frame.Reader

/-!
# Streams of frames

A stream walks over back-to-back frames. It ends with its bytes, or with the
first fault, since a frame that cannot be read does not tell where the next one
starts.
-/
namespace WireCapture

structure Stream where
  offset : Nat
  rest : Bytes
  failed : Bool
  deriving DecidableEq, Repr

namespace Stream

def ofBytes (data : Bytes) : Stream := ⟨0, data, false⟩

/-- The next frame or the fault that ends the stream; nothing after the end. -/
def next (s : Stream) : Option (Except Fault Frame) × Stream :=
  if s.failed || s.rest.isEmpty then (none, s)
  else match Frame.ofBytes s.rest with
    | .ok (f, n) => (some (.ok f), { s with offset := s.offset + n, rest := s.rest.drop n })
    | .error e => (some (.error e), { s with failed := true })

theorem length_rest_lt {s s' : Stream} {f : Frame} (h : s.next = (some (.ok f), s')) :
    s'.rest.length < s.rest.length := by
  unfold next at h
  split at h
  · simp at h
  · rename_i hs
    split at h
    · rename_i g n hg
      simp only [Prod.mk.injEq, Option.some.injEq, Except.ok.injEq] at h
      obtain ⟨-, rfl⟩ := h
      have hn := Frame.ofBytes_size hg
      have hp := g.wireSize_pos
      have hr : 0 < s.rest.length := by
        apply List.length_pos_iff.mpr
        intro he
        simp [he] at hs
      simp only [List.length_drop]
      omega
    · simp at h

/-- What a whole stream yields. -/
structure Contents where
  frames : List Frame
  /-- The fault that ended the stream, if one did. -/
  fault : Option Fault
  /-- Where the stream ended. -/
  offset : Nat
  deriving DecidableEq, Repr

def contents (s : Stream) : Contents := go s []
where
  go (s : Stream) (done : List Frame) : Contents :=
    match _h : s.next with
    | (some (.ok f), s') => go s' (f :: done)
    | (some (.error e), s') => ⟨done.reverse, some e, s'.offset⟩
    | (none, s') => ⟨done.reverse, none, s'.offset⟩
  termination_by s.rest.length
  decreasing_by exact length_rest_lt _h

end Stream

/-- The frames of a capture up to the first fault. -/
def Frame.allOfBytes (data : Bytes) : Stream.Contents := (Stream.ofBytes data).contents

end WireCapture
