import WireCapture.Frame
import WireCapture.Json

/-!
# Frames as documents

The kind of a frame, then its fields. A chunk is a list of numbers.
-/
namespace WireCapture

def Reason.document : Reason → Json
  | .closed => .string "Closed"
  | .sendTimeout => .string "SendTimeout"
  | .recvTimeout => .string "RecvTimeout"
  | .unknown code => .object [("Unknown", .nat code.toNat)]

def Frame.fields : Frame → List (String × Json)
  | .start action flags size name sendId =>
      [ ("action", .nat action.toNat), ("flags", .nat flags.toNat),
        ("size", .nat size.toNat), ("type_name", .string name),
        ("send_id", .nat sendId.toNat) ]
  | .accept recvId sendId =>
      [("recv_id", .nat recvId.toNat), ("send_id", .nat sendId.toNat)]
  | .data recvId token seq chunk =>
      [ ("recv_id", .nat recvId.toNat), ("token", .nat token.toNat),
        ("seq", .nat seq.toNat), ("data", .array (chunk.map fun b => .nat b.toNat)) ]
  | .ack recvId token seq =>
      [ ("recv_id", .nat recvId.toNat), ("token", .nat token.toNat),
        ("seq", .nat seq.toNat) ]
  | .done recvId => [("recv_id", .nat recvId.toNat)]
  | .cancel recvId reason => [("recv_id", .nat recvId.toNat), ("reason", reason.document)]
  | .abort recvId reason => [("recv_id", .nat recvId.toNat), ("reason", reason.document)]

def Frame.document (f : Frame) : Json :=
  .object (("frame", .string f.kind.label) :: f.fields)

end WireCapture
