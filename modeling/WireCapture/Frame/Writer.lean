import WireCapture.Frame

/-!
# Writing frames

A frame can be written when its type name and its chunk fit their fields, into a
buffer with room for it. Both are checked before anything is written, for a whole
frame and again for its payload.
-/
namespace WireCapture.Frame

/-- Refuses a name or a chunk that its field cannot hold. -/
def check : Frame → Except Fault Unit
  | .start _ _ _ name _ =>
      let length := (Text.Utf8.encode name).length
      if nameWidth < length then .error (.nameTooLong length nameWidth) else .ok ()
  | .data _ _ _ chunk =>
      if maxChunk < chunk.length then .error (.chunkTooLarge chunk.length maxChunk)
      else .ok ()
  | _ => .ok ()

/-- A text in a field of `width` bytes, filled up with zeros. -/
def padded (width : Nat) (text : String) : Bytes :=
  let bs := Text.Utf8.encode text
  bs ++ List.replicate (width - bs.length) 0

/-- The payload of a frame that passes `check`. -/
def payload : Frame → Bytes
  | .start action flags size name sendId =>
      [action, flags] ++ Word.bytes 4 size.toNat ++ padded nameWidth name ++ [sendId, 0, 0, 0]
  | .accept recvId sendId => [recvId, sendId]
  | .data recvId token seq chunk =>
      [recvId, token] ++ Word.bytes 2 seq.toNat ++ Word.bytes 2 chunk.length ++ chunk
  | .ack recvId token seq => [recvId, token] ++ Word.bytes 2 seq.toNat
  | .done recvId => [recvId]
  | .cancel recvId reason => [recvId, reason.code]
  | .abort recvId reason => [recvId, reason.code]

def toBytes (f : Frame) : Except Fault Bytes := do
  f.check
  return f.kind.opcode :: f.payload

/-- Refuses a buffer of fewer than `needed` bytes. -/
def checkRoom (needed : Nat) (buffer : Bytes) : Except Fault Unit :=
  if buffer.length < needed then .error (.shortBuffer needed buffer.length) else .ok ()

/-- Whether a frame can be written as `size` bytes into a buffer. -/
def checkInto (f : Frame) (size : Nat) (buffer : Bytes) : Except Fault Unit := do
  f.check
  checkRoom size buffer

/-- Writes bytes over the front of a buffer. -/
def overwrite (bs buffer : Bytes) : Bytes := bs ++ buffer.drop bs.length

/-- Writes the payload alone to the front of a buffer. The answer is its size or a
fault; the buffer after comes second. -/
def writePayloadInto (f : Frame) (buffer : Bytes) : Except Fault Nat × Bytes :=
  match f.checkInto f.payloadSize buffer with
  | .ok () => (.ok f.payloadSize, overwrite f.payload buffer)
  | .error e => (.error e, buffer)

/-- Writes opcode and payload to the front of a buffer. The opcode is in its place
before the payload is tried. -/
def writeInto (f : Frame) (buffer : Bytes) : Except Fault Nat × Bytes :=
  match f.checkInto f.wireSize buffer with
  | .ok () =>
      let (written, rest) := f.writePayloadInto (buffer.drop 1)
      ((1 + ·) <$> written, f.kind.opcode :: rest)
  | .error e => (.error e, buffer)

end WireCapture.Frame
