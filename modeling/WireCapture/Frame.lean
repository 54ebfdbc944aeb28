import WireCapture.Fault
import WireCapture.Text.Utf8

/-!
# Transfer frames

The seven frames of a chunked transfer. The sender offers a transfer with
`start`, the receiver binds its session with `accept`, chunks travel as `data`
and are answered one by one with `ack`, and `done` completes the transfer;
`cancel` and `abort` end it early. On the wire a frame is its opcode and a
payload, whose size is fixed but for the chunk of a `data` frame.
-/
namespace WireCapture

/-- Why a transfer ended early. -/
inductive Reason
  | closed
  | sendTimeout
  | recvTimeout
  | unknown (code : UInt8)
  deriving DecidableEq, Repr

namespace Reason

def code : Reason → UInt8
  | .closed => 1
  | .sendTimeout => 2
  | .recvTimeout => 3
  | .unknown c => c

def ofCode (c : UInt8) : Reason :=
  if c = 1 then .closed
  else if c = 2 then .sendTimeout
  else if c = 3 then .recvTimeout
  else .unknown c

theorem code_ofCode (c : UInt8) : (ofCode c).code = c := by
  unfold ofCode
  repeat' split
  all_goals simp_all [code]

end Reason

inductive Frame
  | start (action flags : UInt8) (size : UInt32) (typeName : String) (sendId : UInt8)
  | accept (recvId sendId : UInt8)
  | data (recvId token : UInt8) (seq : UInt16) (chunk : Bytes)
  | ack (recvId token : UInt8) (seq : UInt16)
  | done (recvId : UInt8)
  | cancel (recvId : UInt8) (reason : Reason)
  | abort (recvId : UInt8) (reason : Reason)
  deriving DecidableEq, Repr

namespace Frame

inductive Kind
  | start | accept | data | ack | done | cancel | abort
  deriving DecidableEq, Repr

namespace Kind

/-- Every kind, in the order of the opcodes. -/
def all : List Kind := [.start, .accept, .data, .ack, .done, .cancel, .abort]

def label : Kind → String
  | .start => "Start"
  | .accept => "Accept"
  | .data => "Data"
  | .ack => "Ack"
  | .done => "Done"
  | .cancel => "Cancel"
  | .abort => "Abort"

def opcode : Kind → UInt8
  | .start => 0
  | .accept => 1
  | .data => 2
  | .ack => 3
  | .done => 4
  | .cancel => 5
  | .abort => 6

def ofOpcode? (code : UInt8) : Option Kind := all.find? fun k => k.opcode = code

theorem ofOpcode?_opcode (k : Kind) : ofOpcode? k.opcode = some k := by
  cases k <;> rfl

/-- Size of the payload without the chunk of a `data` frame. -/
def fixedSize : Kind → Nat
  | .start => 138
  | .accept => 2
  | .data => 6
  | .ack => 4
  | .done => 1
  | .cancel => 2
  | .abort => 2

end Kind

/-- Width of the type name field of a `start` frame. -/
def nameWidth : Nat := 128

/-- Length of the longest chunk of a `data` frame. -/
def maxChunk : Nat := 65535

def kind : Frame → Kind
  | .start .. => .start
  | .accept .. => .accept
  | .data .. => .data
  | .ack .. => .ack
  | .done .. => .done
  | .cancel .. => .cancel
  | .abort .. => .abort

def chunk : Frame → Bytes
  | .data _ _ _ bs => bs
  | _ => []

def payloadSize (f : Frame) : Nat := f.kind.fixedSize + f.chunk.length

/-- Size with the opcode. -/
def wireSize (f : Frame) : Nat := 1 + f.payloadSize

theorem wireSize_pos (f : Frame) : 0 < f.wireSize := by
  unfold wireSize
  omega

end Frame

end WireCapture
