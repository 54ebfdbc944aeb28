import WireCapture.Proofs.EntityStreaming
import WireCapture.Proofs.ReaderFaults

/-!
# Faults of records and introducers

Reading a record fails for want of bytes, at a version above its ceiling or at the
legacy layout that is not supported. An introducer adds the object type that has no
mapping. No other fault comes from a single entity, so what else ends a decoding
comes from the nesting.
-/
namespace WireCapture

/-- The ways in which reading a record can fail. -/
def Fault.ofRecord : Fault → Bool
  | .unexpectedEnd .. | .unsupportedVersion .. | .unsupportedLegacyFormat .. => true
  | _ => false

theorem Fault.ofRecord_of_isUnexpectedEnd {e : Fault} (h : e.isUnexpectedEnd = true) :
    e.ofRecord = true := by
  cases e <;> simp_all [isUnexpectedEnd, ofRecord]

namespace Reader

variable {α : Type} {r : Reader α}

/-- All faults of a reader are faults of records. -/
abbrev RecordFaults (r : Reader α) : Prop := FaultsIn (fun e => e.ofRecord = true) r

theorem FaultsIn.record (h : OnlyShort r) : RecordFaults r :=
  h.mono fun _ => Fault.ofRecord_of_isUnexpectedEnd

theorem faults_version (what : Versioned) : RecordFaults (version what) :=
  short_u16.record.bind fun v => .ite (.throw rfl) (.pure v)

end Reader

open Reader

theorem ScriptBinding.faults_reader : RecordFaults ScriptBinding.reader :=
  (faults_version .script).bind fun _ =>
    (short_countedText 4).record.bind fun _ =>
      short_u32.record.bind fun _ => .pure _

namespace ObjectHeader

theorem faults_ownedIdsReader : RecordFaults ownedIdsReader :=
  short_u16.record.bind fun count => (short_take (count.toNat * 4)).record.bind fun _ => .pure _

theorem faults_presentReader (head : ObjectHeader) : RecordFaults (presentReader head) :=
  short_u32.record.bind fun _ =>
    (short_countedText 1).record.bind fun _ =>
      short_u8.record.bind fun _ =>
        short_u8.record.bind fun _ =>
          faults_ownedIdsReader.bind fun _ =>
            short_u32.record.bind fun _ =>
              (ScriptBinding.faults_reader.gated _).bind fun _ =>
                (short_i32.record.gated _).bind fun _ => .pure _

theorem faults_currentReader (version : UInt16) : RecordFaults (currentReader version) :=
  short_u32.record.bind fun _ =>
    short_u32.record.bind fun _ =>
      short_single.record.bind fun _ =>
        short_single.record.bind fun _ =>
          short_u8.record.bind fun _ => .ite (.pure _) (faults_presentReader _)

theorem faults_legacyCoordinate (version : UInt16) : RecordFaults (legacyCoordinate version) :=
  .ite short_i32.record.map short_single.record

theorem faults_legacyReader (version : UInt16) : RecordFaults (legacyReader version) :=
  short_u32.record.bind fun _ =>
    short_u32.record.bind fun _ =>
      (faults_legacyCoordinate version).bind fun _ =>
        (faults_legacyCoordinate version).bind fun _ =>
          ((short_countedText 1).record.gated _).bind fun _ =>
            (short_u8.record.gated _).bind fun _ =>
              (short_u8.record.gated _).bind fun _ => .pure _

theorem faults_reader (version : UInt16) : RecordFaults (reader version) :=
  .ite (faults_legacyReader version)
    ((faults_version .header).bind fun subVersion =>
      .ite (.throw rfl) (faults_currentReader subVersion))

end ObjectHeader

namespace Gear

theorem faults_modifiersReader : RecordFaults modifiersReader :=
  (short_countedText 1).record.bind fun _ =>
    (short_countedText 1).record.bind fun _ =>
      (short_countedText 1).record.bind fun _ =>
        (short_countedText 1).record.bind fun _ => .pure _

theorem faults_reader (l : Layout) (version : UInt16) : RecordFaults (reader l version) :=
  (faults_modifiersReader.gated _).bind fun _ =>
    (short_u32.record.gated _).bind fun _ =>
      (short_u32.record.gated _).bind fun _ =>
        (short_u8.record.gated _).bind fun _ =>
          (short_u32.record.gated _).bind fun _ => .pure _

end Gear

theorem Body.faults_reader (version : UInt16) (kind : Kind) :
    RecordFaults (reader version kind) := by
  cases kind with
  | default => exact .pure _
  | armor => exact (Gear.faults_reader _ version).map
  | weapon => exact (Gear.faults_reader _ version).map

theorem Record.faults_reader (kind : Kind) : RecordFaults (Record.reader kind) :=
  (faults_version kind.versioned).bind fun version =>
    (ObjectHeader.faults_reader version).bind fun _ =>
      (Body.faults_reader version kind).bind fun _ => .pure _

/-- The ways in which an introducer can fail. -/
def Fault.ofIntroducer : Fault → Bool
  | .noObjectMapping _ => true
  | e => e.ofRecord

theorem Fault.ofIntroducer_of_ofRecord {e : Fault} (h : e.ofRecord = true) :
    e.ofIntroducer = true := by
  cases e <;> simp_all [ofRecord, ofIntroducer]

theorem Decoder.faults_introducer (objects : ObjectMapping) (version : UInt16) :
    FaultsIn (fun e => e.ofIntroducer = true) (introducer objects version) := by
  have hrecord : ∀ e : Fault, e.ofRecord = true → e.ofIntroducer = true :=
    fun _ => Fault.ofIntroducer_of_ofRecord
  refine .ite ?_ ?_
  · refine ((short_countedText 1).record.mono hrecord).bind fun name => .ofExcept fun e he => ?_
    rw [ObjectMapping.resolve_fault he]
    rfl
  · refine (short_u16.record.mono hrecord).bind fun id => .ofExcept fun e he => ?_
    rw [ObjectMapping.resolve_fault he]
    rfl

end WireCapture
