import WireCapture.Entity.Document
import WireCapture.Frame.Document
import WireCapture.Frame.Stream
import WireCapture.Json.Printer
import WireCapture.Settings

/-!
# Inspection

Decoding a whole capture under given settings. Captures come in unmasked.
-/
namespace WireCapture

namespace Settings

def rules (s : Settings) : DecodeRules where
  objects := s.table.mapping
  limit := s.maxDepth

/-- The entity at the start of a capture. No decoder runs without a tag. -/
def decode (s : Settings) (type : TypeRef) (data : Bytes) : DecodeOutcome :=
  match type.resolve s.table.mapping with
  | .error e => ⟨.error ⟨e, none⟩, .ofBytes data, []⟩
  | .ok tag => (Decoder.ofTag s.rules tag).run data

end Settings

namespace DecodeOutcome

/-- Bytes after a decoded entity are worth a warning. -/
def trailing (o : DecodeOutcome) : List Event :=
  match o.result with
  | .ok _ => if o.cursor.isEmpty then [] else [.trailingBytes o.cursor.remaining]
  | .error _ => []

def events (o : DecodeOutcome) : List Event := o.visits.map .visited ++ o.trailing

end DecodeOutcome

/-- The frames that were read, and where a fault stopped the reading. -/
def Stream.Contents.events (c : Stream.Contents) : List Event :=
  c.frames.map .ofDecoded ++ if c.fault.isSome then [.framesStopped c.offset] else []

def Entity.render (e : Entity) (format : Json.Format) : String := e.document.render format

def Frame.render (f : Frame) (format : Json.Format) : String := f.document.render format

end WireCapture
