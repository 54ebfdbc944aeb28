import WireCapture.Frame.Reader
import WireCapture.Frame.Writer
import WireCapture.Proofs.ReaderLaws
import WireCapture.Proofs.Utf8Pieces

/-!
# Frames on the wire

Which bytes are read as which frame, said without the reader: `Image` lists the
payloads of every frame. The name field of a `start` frame may hold any bytes and the
reserved bytes any values, so several payloads can stand for one frame; the payload
that is written is one of them, that of the frame as it is received.
-/
namespace WireCapture

namespace Frame

/-- The payloads that are read as a frame. -/
inductive Image : Frame → Bytes → Prop
  | start (action flags : UInt8) (size : UInt32) {field : Bytes} (sendId : UInt8)
      {reserved : Bytes} : field.length = nameWidth → reserved.length = 3 →
      Image (.start action flags size (Text.Utf8.cString field) sendId)
        ([action, flags] ++ Word.bytes 4 size.toNat ++ field ++ [sendId] ++ reserved)
  | accept (recvId sendId : UInt8) : Image (.accept recvId sendId) [recvId, sendId]
  | data (recvId token : UInt8) (seq : UInt16) {chunk : Bytes} : chunk.length ≤ maxChunk →
      Image (.data recvId token seq chunk)
        ([recvId, token] ++ Word.bytes 2 seq.toNat ++ Word.bytes 2 chunk.length ++ chunk)
  | ack (recvId token : UInt8) (seq : UInt16) :
      Image (.ack recvId token seq) ([recvId, token] ++ Word.bytes 2 seq.toNat)
  | done (recvId : UInt8) : Image (.done recvId) [recvId]
  | cancel (recvId code : UInt8) : Image (.cancel recvId (.ofCode code)) [recvId, code]
  | abort (recvId code : UInt8) : Image (.abort recvId (.ofCode code)) [recvId, code]

theorem Image.length {f : Frame} {bs : Bytes} (h : Image f bs) : bs.length = f.payloadSize := by
  cases h <;> simp_all [payloadSize, kind, Kind.fixedSize, chunk, nameWidth, Word.length_bytes]
  omega

/-- An image is read as its frame, whatever follows. -/
theorem Image.reads {f : Frame} {bs : Bytes} (h : Image f bs) :
    Reads (payloadReader f.kind) bs f := by
  cases h with
  | start action flags size sendId hfield hreserved =>
      simp only [List.append_assoc]
      change Reads _ ([action] ++ ([flags] ++ _)) _
      refine (Reader.reads_u8 action).bind ?_
      refine (Reader.reads_u8 flags).bind ?_
      refine (Reader.reads_u32 size).bind ?_
      refine (Reader.reads_take hfield).map.bind ?_
      refine (Reader.reads_u8 sendId).bind ?_
      exact (Reader.reads_take hreserved).bind_pure rfl
  | accept recvId sendId =>
      exact (Reader.reads_u8 recvId).bind ((Reader.reads_u8 sendId).bind_pure rfl)
  | @data recvId token seq chunk hchunk =>
      have hn : (UInt16.ofNat chunk.length).toNat = chunk.length :=
        UInt16.toNat_ofNat_of_lt' (Nat.lt_succ_of_le hchunk)
      have hlength := Reader.reads_u16 (UInt16.ofNat chunk.length)
      rw [hn] at hlength
      simp only [List.append_assoc]
      change Reads _ ([recvId] ++ ([token] ++ _)) _
      refine (Reader.reads_u8 recvId).bind ?_
      refine (Reader.reads_u8 token).bind ?_
      refine (Reader.reads_u16 seq).bind ?_
      exact hlength.bind ((Reader.reads_take hn.symm).bind_pure rfl)
  | ack recvId token seq =>
      change Reads _ ([recvId] ++ ([token] ++ _)) _
      refine (Reader.reads_u8 recvId).bind ?_
      exact (Reader.reads_u8 token).bind ((Reader.reads_u16 seq).bind_pure rfl)
  | done recvId => exact (Reader.reads_u8 recvId).map
  | cancel recvId code =>
      exact (Reader.reads_u8 recvId).bind ((Reader.reads_u8 code).bind_pure rfl)
  | abort recvId code =>
      exact (Reader.reads_u8 recvId).bind ((Reader.reads_u8 code).bind_pure rfl)

/-- What was read as a frame is an image of it. -/
theorem image_of_payloadReader {k : Kind} {c c' : Cursor} {f : Frame}
    (h : payloadReader k c = .ok f c') : f.kind = k ∧ ∃ bs, Image f bs ∧ c.Passes bs c' := by
  cases k with
  | start =>
      obtain ⟨action, _, haction, h⟩ := bind_eq_ok.mp h
      obtain ⟨flags, _, hflags, h⟩ := bind_eq_ok.mp h
      obtain ⟨size, _, hsize, h⟩ := bind_eq_ok.mp h
      obtain ⟨name, _, hname, h⟩ := bind_eq_ok.mp h
      obtain ⟨sendId, _, hsend, h⟩ := bind_eq_ok.mp h
      obtain ⟨reserved, _, hreserved, h⟩ := bind_eq_ok.mp h
      obtain ⟨field, hfield, rfl⟩ := map_eq_ok.mp hname
      cases h
      obtain ⟨hfieldLength, hfield⟩ := Reader.passes_of_take hfield
      obtain ⟨hreservedLength, hreserved⟩ := Reader.passes_of_take hreserved
      exact ⟨rfl, _, .start action flags size sendId hfieldLength hreservedLength,
        (((((Reader.passes_of_u8 haction).trans (Reader.passes_of_u8 hflags)).trans
          (Reader.passes_of_u32 hsize)).trans hfield).trans
            (Reader.passes_of_u8 hsend)).trans hreserved⟩
  | accept =>
      obtain ⟨recvId, _, hrecv, h⟩ := bind_eq_ok.mp h
      obtain ⟨sendId, _, hsend, h⟩ := bind_eq_ok.mp h
      cases h
      exact ⟨rfl, _, .accept recvId sendId,
        (Reader.passes_of_u8 hrecv).trans (Reader.passes_of_u8 hsend)⟩
  | data =>
      obtain ⟨recvId, _, hrecv, h⟩ := bind_eq_ok.mp h
      obtain ⟨token, _, htoken, h⟩ := bind_eq_ok.mp h
      obtain ⟨seq, _, hseq, h⟩ := bind_eq_ok.mp h
      obtain ⟨length, _, hlength, h⟩ := bind_eq_ok.mp h
      obtain ⟨chunk, _, hchunk, h⟩ := bind_eq_ok.mp h
      cases h
      obtain ⟨hchunkLength, hchunk⟩ := Reader.passes_of_take hchunk
      have hlength := Reader.passes_of_u16 hlength
      have hmax : chunk.length ≤ maxChunk := by
        rw [hchunkLength]
        exact Nat.le_of_lt_succ length.toNat_lt
      rw [← hchunkLength] at hlength
      exact ⟨rfl, _, .data recvId token seq hmax,
        ((((Reader.passes_of_u8 hrecv).trans (Reader.passes_of_u8 htoken)).trans
          (Reader.passes_of_u16 hseq)).trans hlength).trans hchunk⟩
  | ack =>
      obtain ⟨recvId, _, hrecv, h⟩ := bind_eq_ok.mp h
      obtain ⟨token, _, htoken, h⟩ := bind_eq_ok.mp h
      obtain ⟨seq, _, hseq, h⟩ := bind_eq_ok.mp h
      cases h
      exact ⟨rfl, _, .ack recvId token seq,
        ((Reader.passes_of_u8 hrecv).trans (Reader.passes_of_u8 htoken)).trans
          (Reader.passes_of_u16 hseq)⟩
  | done =>
      obtain ⟨recvId, hrecv, rfl⟩ := map_eq_ok.mp h
      exact ⟨rfl, _, .done recvId, Reader.passes_of_u8 hrecv⟩
  | cancel =>
      obtain ⟨recvId, _, hrecv, h⟩ := bind_eq_ok.mp h
      obtain ⟨code, _, hcode, h⟩ := bind_eq_ok.mp h
      cases h
      exact ⟨rfl, _, .cancel recvId code,
        (Reader.passes_of_u8 hrecv).trans (Reader.passes_of_u8 hcode)⟩
  | abort =>
      obtain ⟨recvId, _, hrecv, h⟩ := bind_eq_ok.mp h
      obtain ⟨code, _, hcode, h⟩ := bind_eq_ok.mp h
      cases h
      exact ⟨rfl, _, .abort recvId code,
        (Reader.passes_of_u8 hrecv).trans (Reader.passes_of_u8 hcode)⟩

theorem ofPayload_eq_ok_iff {k : Kind} {bs : Bytes} {f : Frame} : ofPayload k bs = .ok f ↔
    f.kind = k ∧ ∃ body tail, Image f body ∧ bs = body ++ tail := by
  unfold ofPayload
  constructor
  · intro h
    split at h
    · rename_i c hr
      cases h
      obtain ⟨hk, body, hi, hp⟩ := image_of_payloadReader hr
      exact ⟨hk, body, c.rest, hi, hp.rest⟩
    · cases h
  · intro h
    obtain ⟨rfl, body, tail, hi, rfl⟩ := h
    have hr := Reader.reads_iff.mp hi.reads 0 tail
    change payloadReader f.kind (.ofBytes (body ++ tail)) = _ at hr
    rw [hr]

theorem Kind.opcode_of_ofOpcode? {code : UInt8} {k : Kind} (h : ofOpcode? code = some k) :
    k.opcode = code := by
  unfold ofOpcode? at h
  simpa using List.find?_some h

/-- A byte string starts with a frame exactly if it starts with the opcode and an image. -/
theorem ofBytes_eq_ok_iff {bs : Bytes} {f : Frame} {n : Nat} : ofBytes bs = .ok (f, n) ↔
    n = f.wireSize ∧ ∃ body tail, Image f body ∧ bs = f.kind.opcode :: (body ++ tail) := by
  constructor
  · intro h
    refine ⟨ofBytes_size h, ?_⟩
    unfold ofBytes at h
    split at h
    · cases h
    · split at h
      · cases h
      · rename_i code payload k hk
        split at h
        · rename_i g hg
          cases h
          obtain ⟨hkind, body, tail, hi, rfl⟩ := ofPayload_eq_ok_iff.mp hg
          refine ⟨body, tail, hi, ?_⟩
          rw [hkind, Kind.opcode_of_ofOpcode? hk]
        · cases h
  · intro h
    obtain ⟨rfl, body, tail, hi, rfl⟩ := h
    have hp : ofPayload f.kind (body ++ tail) = .ok f :=
      ofPayload_eq_ok_iff.mpr ⟨rfl, body, tail, hi, rfl⟩
    simp only [ofBytes, Kind.ofOpcode?_opcode, hp]

/-- The bytes of the type name of a `start` frame. -/
def nameBytes : Frame → Bytes
  | .start _ _ _ name _ => Text.Utf8.encode name
  | _ => []

theorem check_eq_ok_iff {f : Frame} :
    f.check = .ok () ↔ f.nameBytes.length ≤ nameWidth ∧ f.chunk.length ≤ maxChunk := by
  cases f <;> simp [check, nameBytes, chunk]

theorem check_of_long_name {f : Frame} (h : nameWidth < f.nameBytes.length) :
    f.kind = .start ∧ f.check = .error (.nameTooLong f.nameBytes.length nameWidth) := by
  cases f with
  | start action flags size name sendId => exact ⟨rfl, if_pos h⟩
  | _ => exact absurd h (Nat.not_lt_zero _)

theorem toBytes_eq_ok_iff {f : Frame} {bs : Bytes} :
    f.toBytes = .ok bs ↔ f.check = .ok () ∧ bs = f.kind.opcode :: f.payload := by
  unfold toBytes
  cases f.check with
  | ok _ => simp [bind, Except.bind, pure, Except.pure, eq_comm]
  | error e => simp [bind, Except.bind]

theorem length_padded {width : Nat} {text : String} (h : (Text.Utf8.encode text).length ≤ width) :
    (padded width text).length = width := by
  rw [padded, List.length_append, List.length_replicate]
  exact Nat.add_sub_of_le h

/-- The frame that arrives when a frame is sent: a type name ends at a NUL character,
and a known code is no unknown reason. -/
def received : Frame → Frame
  | .start action flags size name sendId =>
      .start action flags size (Text.Utf8.beforeNul name) sendId
  | .cancel recvId reason => .cancel recvId (.ofCode reason.code)
  | .abort recvId reason => .abort recvId (.ofCode reason.code)
  | f => f

/-- The payload that is written is an image of the frame that arrives. -/
theorem image_payload {f : Frame} (h : f.check = .ok ()) : Image f.received f.payload := by
  obtain ⟨hname, hchunk⟩ := check_eq_ok_iff.mp h
  cases f with
  | start action flags size name sendId =>
      have himage := @Image.start action flags size _ sendId [0, 0, 0] (length_padded hname) rfl
      rw [padded, Text.Utf8.cString_encode_append, List.append_assoc] at himage
      exact himage
  | accept recvId sendId => exact .accept recvId sendId
  | data recvId token seq chunk => exact .data recvId token seq hchunk
  | ack recvId token seq => exact .ack recvId token seq
  | done recvId => exact .done recvId
  | cancel recvId reason => exact .cancel recvId reason.code
  | abort recvId reason => exact .abort recvId reason.code

theorem wireSize_received (f : Frame) : f.received.wireSize = f.wireSize := by
  cases f <;> rfl

end Frame

end WireCapture
