import WireCapture.Proofs.FrameRoundTrip

/-!
# Frames in buffers

A frame is written whole or not at all, whatever the buffer held before. The opcode
is in its place before the payload is tried, and the payload is checked again: it
passes, since behind the opcode there is one byte less of room and one byte less to
write. A payload written alone obeys the same law, stated once for both.
-/
namespace WireCapture.Frame

/-- The type name and the chunk of a frame fit their fields. -/
def Representable (f : Frame) : Prop :=
  f.nameBytes.length ≤ nameWidth ∧ f.chunk.length ≤ maxChunk

instance (f : Frame) : Decidable f.Representable :=
  inferInstanceAs (Decidable (_ ∧ _))

/-- The fault of a frame that is not representable. -/
inductive Refuses (f : Frame) : Fault → Prop
  | name : nameWidth < f.nameBytes.length →
      Refuses f (.nameTooLong f.nameBytes.length nameWidth)
  | chunk : maxChunk < f.chunk.length →
      Refuses f (.chunkTooLarge f.chunk.length maxChunk)

section Check

variable {f : Frame} {e : Fault}

theorem exists_refuses (h : ¬ f.Representable) : ∃ e, f.Refuses e := by
  by_cases hname : f.nameBytes.length ≤ nameWidth
  · exact ⟨_, .chunk (Nat.lt_of_not_le fun hchunk => h ⟨hname, hchunk⟩)⟩
  · exact ⟨_, .name (Nat.lt_of_not_le hname)⟩

theorem check_of_representable (h : f.Representable) : f.check = .ok () := check_eq_ok_iff.mpr h

theorem check_eq_error_iff : f.check = .error e ↔ f.Refuses e := by
  constructor
  · intro h
    cases f with
    | start action flags size name sendId =>
        simp only [check] at h
        split at h
        · cases h
          exact .name ‹_›
        · cases h
    | data recvId token seq chunk =>
        simp only [check] at h
        split at h
        · cases h
          exact .chunk ‹_›
        · cases h
    | _ => cases h
  · intro h
    cases h with
    | name hlong => exact (check_of_long_name hlong).2
    | chunk hlong =>
        cases f with
        | data recvId token seq chunk => exact if_pos hlong
        | _ => exact absurd hlong (Nat.not_lt_zero _)

theorem toBytes_of_representable (h : f.Representable) :
    f.toBytes = .ok (f.kind.opcode :: f.payload) :=
  toBytes_eq_ok_iff.mpr ⟨check_of_representable h, rfl⟩

theorem toBytes_eq_error_iff : f.toBytes = .error e ↔ f.Refuses e := by
  rw [← check_eq_error_iff, toBytes]
  cases f.check <;> simp [bind, Except.bind, pure, Except.pure]

theorem exists_toBytes_iff : (∃ bs, f.toBytes = .ok bs) ↔ f.Representable := by
  constructor
  · intro h
    obtain ⟨bs, hbs⟩ := h
    exact check_eq_ok_iff.mp (toBytes_eq_ok_iff.mp hbs).1
  · intro h
    exact ⟨_, toBytes_of_representable h⟩

theorem length_payload (h : f.Representable) : f.payload.length = f.payloadSize := by
  rw [(image_payload (check_of_representable h)).length]
  exact Nat.add_left_cancel f.wireSize_received

end Check

section Room

variable {f : Frame} {size : Nat} {buffer bs : Bytes}

theorem checkInto_of_refuses {e : Fault} (h : f.Refuses e) :
    f.checkInto size buffer = .error e := by
  rw [checkInto, check_eq_error_iff.mpr h]
  rfl

theorem checkInto_of_short (h : f.Representable) (hsize : buffer.length < size) :
    f.checkInto size buffer = .error (.shortBuffer size buffer.length) := by
  rw [checkInto, check_of_representable h]
  exact if_pos hsize

theorem checkInto_of_room (h : f.Representable) (hsize : size ≤ buffer.length) :
    f.checkInto size buffer = .ok () := by
  rw [checkInto, check_of_representable h]
  exact if_neg (Nat.not_lt_of_le hsize)

theorem checkInto_eq_ok_iff :
    f.checkInto size buffer = .ok () ↔ f.Representable ∧ size ≤ buffer.length := by
  constructor
  · intro h
    by_cases hf : f.Representable
    · refine ⟨hf, Nat.le_of_not_lt fun hsize => ?_⟩
      rw [checkInto_of_short hf hsize] at h
      cases h
    · obtain ⟨e, he⟩ := exists_refuses hf
      rw [checkInto_of_refuses he] at h
      cases h
  · intro h
    exact checkInto_of_room h.1 h.2

theorem take_overwrite : (overwrite bs buffer).take bs.length = bs := List.take_left

theorem drop_overwrite : (overwrite bs buffer).drop bs.length = buffer.drop bs.length :=
  List.drop_left

theorem length_overwrite (h : bs.length ≤ buffer.length) :
    (overwrite bs buffer).length = buffer.length := by
  rw [overwrite, List.length_append, List.length_drop]
  exact Nat.add_sub_of_le h

theorem writePayloadInto_of_ok (h : f.checkInto f.payloadSize buffer = .ok ()) :
    f.writePayloadInto buffer = (.ok f.payloadSize, overwrite f.payload buffer) := by
  rw [writePayloadInto, h]

theorem writePayloadInto_of_error {e : Fault} (h : f.checkInto f.payloadSize buffer = .error e) :
    f.writePayloadInto buffer = (.error e, buffer) := by
  rw [writePayloadInto, h]

/-- The payload passes its own check when the whole frame has passed. -/
theorem checkInto_drop_one (h : f.checkInto f.wireSize buffer = .ok ()) :
    f.checkInto f.payloadSize (buffer.drop 1) = .ok () := by
  obtain ⟨hf, hroom⟩ := checkInto_eq_ok_iff.mp h
  refine checkInto_of_room hf ?_
  rw [List.length_drop]
  exact Nat.le_sub_of_add_le' hroom

theorem writeInto_of_ok (h : f.checkInto f.wireSize buffer = .ok ()) :
    f.writeInto buffer = (.ok f.wireSize, overwrite (f.kind.opcode :: f.payload) buffer) := by
  rw [writeInto, h]
  simp only [writePayloadInto_of_ok (checkInto_drop_one h), overwrite, List.drop_drop]
  rw [List.length_cons, Nat.add_comm]
  rfl

theorem writeInto_of_error {e : Fault} (h : f.checkInto f.wireSize buffer = .error e) :
    f.writeInto buffer = (.error e, buffer) := by
  rw [writeInto, h]

end Room

/-- A buffer after an attempt to write `size` bytes of a frame into it, those behind
`front`. -/
structure AllOrNothing (f : Frame) (front : Bytes) (size : Nat) (buffer : Bytes)
    (written : Except Fault Nat × Bytes) : Prop where
  succeeds_iff : (∃ n, written.1 = .ok n) ↔ f.Representable ∧ size ≤ buffer.length
  all : ∀ n, written.1 = .ok n → n = size ∧ f.toBytes = .ok (front ++ written.2.take size) ∧
    written.2.drop size = buffer.drop size
  nothing : ∀ e, written.1 = .error e → written.2 = buffer ∧
    (¬ f.Representable → f.Refuses e) ∧
    (f.Representable → e = .shortBuffer size buffer.length)
  length : written.2.length = buffer.length

section Law

variable {f : Frame} {front bs buffer : Bytes} {size : Nat} {written : Except Fault Nat × Bytes}

theorem AllOrNothing.of_checkInto
    (hbs : f.Representable → f.toBytes = .ok (front ++ bs) ∧ bs.length = size)
    (hok : f.checkInto size buffer = .ok () → written = (.ok size, overwrite bs buffer))
    (herror : ∀ e, f.checkInto size buffer = .error e → written = (.error e, buffer)) :
    AllOrNothing f front size buffer written := by
  by_cases hf : f.Representable
  · obtain ⟨hbytes, rfl⟩ := hbs hf
    by_cases hroom : bs.length ≤ buffer.length
    · obtain rfl := hok (checkInto_of_room hf hroom)
      refine ⟨⟨fun _ => ⟨hf, hroom⟩, fun _ => ⟨_, rfl⟩⟩, ?_, ?_, length_overwrite hroom⟩
      · intro n hn
        cases hn
        rw [take_overwrite, drop_overwrite]
        exact ⟨rfl, hbytes, rfl⟩
      · intro e he
        cases he
    · obtain rfl := herror _ (checkInto_of_short hf (Nat.lt_of_not_le hroom))
      refine ⟨?_, ?_, ?_, rfl⟩
      · simp [hroom]
      · intro n hn
        cases hn
      · intro e he
        cases he
        exact ⟨rfl, fun h => absurd hf h, fun _ => rfl⟩
  · obtain ⟨e, he⟩ := exists_refuses hf
    obtain rfl := herror e (checkInto_of_refuses he)
    refine ⟨?_, ?_, ?_, rfl⟩
    · simp [hf]
    · intro n hn
      cases hn
    · intro _ he'
      cases he'
      exact ⟨rfl, fun _ => he, fun h => absurd h hf⟩

theorem allOrNothing_writeInto (f : Frame) (buffer : Bytes) :
    AllOrNothing f [] f.wireSize buffer (f.writeInto buffer) := by
  refine .of_checkInto (fun hf => ⟨toBytes_of_representable hf, ?_⟩) writeInto_of_ok
    fun _ => writeInto_of_error
  rw [List.length_cons, length_payload hf, wireSize, Nat.add_comm]

theorem allOrNothing_writePayloadInto (f : Frame) (buffer : Bytes) :
    AllOrNothing f [f.kind.opcode] f.payloadSize buffer (f.writePayloadInto buffer) :=
  .of_checkInto (fun hf => ⟨toBytes_of_representable hf, length_payload hf⟩)
    writePayloadInto_of_ok fun _ => writePayloadInto_of_error

/-- The bytes of a frame are what is in a fresh buffer of its size once it was written. -/
theorem toBytes_eq_writeInto (f : Frame) :
    f.toBytes = (fun _ => (f.writeInto (List.replicate f.wireSize 0)).2) <$>
      (f.writeInto (List.replicate f.wireSize 0)).1 := by
  have hlaw := allOrNothing_writeInto f (List.replicate f.wireSize 0)
  have hroom : f.wireSize ≤ (List.replicate f.wireSize (0 : UInt8)).length := by simp
  cases hanswer : (f.writeInto (List.replicate f.wireSize 0)).1 with
  | ok n =>
      obtain ⟨-, hbytes, -⟩ := hlaw.all n hanswer
      have hfull : (f.writeInto (List.replicate f.wireSize 0)).2.length ≤ f.wireSize := by
        simp [hlaw.length]
      rw [hbytes, List.nil_append, List.take_of_length_le hfull]
      rfl
  | error e =>
      obtain ⟨-, hrefuses, -⟩ := hlaw.nothing e hanswer
      refine toBytes_eq_error_iff.mpr (hrefuses fun hf => ?_)
      obtain ⟨n, hn⟩ := hlaw.succeeds_iff.mpr ⟨hf, hroom⟩
      rw [hanswer] at hn
      cases hn

end Law

/-- Whole frames and payloads are written as the bytes of the frame or not at all, and
only a frame that is not representable has no bytes. -/
theorem written_all_or_nothing (f : Frame) (buffer : Bytes) :
    AllOrNothing f [] f.wireSize buffer (f.writeInto buffer) ∧
    AllOrNothing f [f.kind.opcode] f.payloadSize buffer (f.writePayloadInto buffer) ∧
    f.wireSize = 1 + f.payloadSize ∧
    ((∃ bs, f.toBytes = .ok bs) ↔ f.Representable) ∧
    (∀ e, f.toBytes = .error e ↔ f.Refuses e) ∧
    f.toBytes = (fun _ => (f.writeInto (List.replicate f.wireSize 0)).2) <$>
      (f.writeInto (List.replicate f.wireSize 0)).1 :=
  ⟨allOrNothing_writeInto f buffer, allOrNothing_writePayloadInto f buffer, rfl,
    exists_toBytes_iff, fun _ => toBytes_eq_error_iff, toBytes_eq_writeInto f⟩

example : (ack 1 2 3).writeInto [7, 7, 7, 7] = (.error (.shortBuffer 5 4), [7, 7, 7, 7]) := by
  decide

end WireCapture.Frame
