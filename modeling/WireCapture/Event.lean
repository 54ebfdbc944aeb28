import WireCapture.Entity.Decoder
import WireCapture.Frame

/-!
# Events

What a run reports about itself besides its result, each event with its level
and its text.
-/
namespace WireCapture

inductive Event
  | registered (tag : Tag)
  | visited (visit : Visit)
  | encoded (kind : Frame.Kind) (size : Nat)
  | decoded (kind : Frame.Kind) (size : Nat)
  | framesStopped (offset : Nat)
  | trailingBytes (count : Nat)
  | badXorKey (value : String)
  | badMaxDepth (value : String)
  | unknownOption (key value : String)
  | noOptions (file directory : String)
  | summary (line : String)
  deriving DecidableEq, Repr

namespace Event

inductive Level
  | trace | debug | info | warn
  deriving DecidableEq, Repr

def Level.label : Level → String
  | .trace => "TRACE"
  | .debug => "DEBUG"
  | .info => "INFO"
  | .warn => "WARN"

def level : Event → Level
  | .encoded .. => .trace
  | .decoded .. => .trace
  | .registered .. => .debug
  | .visited .. => .debug
  | .framesStopped .. => .debug
  | .unknownOption .. => .debug
  | .noOptions .. => .debug
  | .summary .. => .info
  | .trailingBytes .. => .warn
  | .badXorKey .. => .warn
  | .badMaxDepth .. => .warn

def text : Event → String
  | .registered tag => "Registered type " ++ tag.text
  | .visited visit =>
      let tag := visit.tag.text
      let offset := visit.offset
      let level := visit.level
      s!"Decoding {tag} at offset {offset} (depth {level})"
  | .encoded kind size =>
      let label := kind.label
      s!"Encoded {label} frame ({size} bytes)"
  | .decoded kind size =>
      let label := kind.label
      s!"Decoded {label} frame ({size} bytes)"
  | .framesStopped offset => s!"Frame decode stopped at offset {offset}"
  | .trailingBytes count => s!"{count} trailing bytes after entity"
  | .badXorKey value => "Ignoring invalid xorkey: " ++ value
  | .badMaxDepth value => "Ignoring invalid maxdepth: " ++ value
  | .unknownOption key value => "Unknown config option: " ++ key ++ " = " ++ value
  | .noOptions file directory => "No " ++ file ++ " in " ++ directory ++ ", using defaults"
  | .summary line => line

def ofEncoded (f : Frame) : Event := .encoded f.kind f.wireSize

def ofDecoded (f : Frame) : Event := .decoded f.kind f.wireSize

end Event

end WireCapture
