import WireCapture.Frame
import WireCapture.Reader

/-!
# Reading frames

One frame is read from the front of a byte string; the answer tells how many
bytes it occupied. Codes of reasons are kept whether known or not, and the
reserved bytes of a `start` frame are skipped.
-/
namespace WireCapture.Frame

def payloadReader : Kind → Reader Frame
  | .start => do
      let action ← Reader.u8
      let flags ← Reader.u8
      let size ← Reader.u32
      let name ← Reader.fixedText nameWidth
      let sendId ← Reader.u8
      let _ ← Reader.take 3
      return .start action flags size name sendId
  | .accept => do
      let recvId ← Reader.u8
      let sendId ← Reader.u8
      return .accept recvId sendId
  | .data => do
      let recvId ← Reader.u8
      let token ← Reader.u8
      let seq ← Reader.u16
      let length ← Reader.u16
      let chunk ← Reader.take length.toNat
      return .data recvId token seq chunk
  | .ack => do
      let recvId ← Reader.u8
      let token ← Reader.u8
      let seq ← Reader.u16
      return .ack recvId token seq
  | .done => .done <$> Reader.u8
  | .cancel => do
      let recvId ← Reader.u8
      let code ← Reader.u8
      return .cancel recvId (.ofCode code)
  | .abort => do
      let recvId ← Reader.u8
      let code ← Reader.u8
      return .abort recvId (.ofCode code)

/-- The payload of a frame of known kind. -/
def ofPayload (k : Kind) (bs : Bytes) : Except Fault Frame :=
  match payloadReader k (.ofBytes bs) with
  | .ok f _ => .ok f
  | .error e _ => .error e

/-- The first frame, and its size on the wire. -/
def ofBytes : Bytes → Except Fault (Frame × Nat)
  | [] => .error (.unexpectedEnd 1 0)
  | code :: payload =>
      match Kind.ofOpcode? code with
      | none => .error (.unknownOpcode code)
      | some k =>
          match ofPayload k payload with
          | .ok f => .ok (f, f.wireSize)
          | .error e => .error e

theorem ofBytes_size {bs : Bytes} {f : Frame} {n : Nat} (h : ofBytes bs = .ok (f, n)) :
    n = f.wireSize := by
  unfold ofBytes at h
  split at h
  · simp at h
  · split at h
    · simp at h
    · split at h
      · simp only [Except.ok.injEq, Prod.mk.injEq] at h
        rw [← h.1, h.2]
      · simp at h

end WireCapture.Frame
