/-!
# Faults

Every way in which decoding or encoding a capture can fail, and the sentence
that reports it. A fault names its cause; the wording lives in `Fault.message`.
-/
namespace WireCapture

/-- Name of a kind of entity record. The empty tag names no kind. -/
structure Tag where
  text : String
  deriving DecidableEq, Repr

namespace Tag

def isEmpty (t : Tag) : Bool := t.text.isEmpty

/-- Code point order, which is also the order of the UTF-8 bytes. -/
def le (a b : Tag) : Bool := decide (a.text ≤ b.text)

def sort (tags : List Tag) : List Tag := tags.mergeSort le

end Tag

/-- The parts of a capture that carry a version number of their own. -/
inductive Versioned
  | header
  | script
  | default
  | armor
  | weapon
  deriving DecidableEq, Repr

namespace Versioned

def label : Versioned → String
  | .header => "object header"
  | .script => "script handler"
  | .default => "default object"
  | .armor => "armor"
  | .weapon => "weapon"

/-- Highest version that is understood. -/
def ceiling : Versioned → UInt16
  | .header => 64
  | .script => 1
  | .default => 60
  | .armor => 62
  | .weapon => 64

end Versioned

inductive Fault
  | unexpectedEnd (needed remaining : Nat)
  | unsupportedVersion (what : Versioned) (version : UInt16)
  | unknownType (tag : Tag)
  | noObjectMapping (objectType : String)
  | shortBuffer (needed available : Nat)
  | chunkTooLarge (length max : Nat)
  | nameTooLong (length max : Nat)
  | unsupportedLegacyFormat (version subVersion : UInt16)
  | unknownOpcode (code : UInt8)
  | nestingTooDeep (limit : Nat)
  deriving DecidableEq, Repr

namespace Fault

/-- Only a short input can be mended by reading more of it. -/
def isUnexpectedEnd : Fault → Bool
  | .unexpectedEnd _ _ => true
  | _ => false

def message : Fault → String
  | .unexpectedEnd needed remaining =>
      s!"Unexpected end of data: needed {needed} bytes, {remaining} remaining"
  | .unsupportedVersion what version =>
      let label := what.label
      let max := what.ceiling.toNat
      let found := version.toNat
      s!"Unsupported {label} version {found} (max {max})"
  | .unknownType tag => "Unknown type: " ++ tag.text
  | .noObjectMapping objectType => "No type mapping for object type " ++ objectType
  | .shortBuffer needed available =>
      s!"Short buffer: needed {needed} bytes, {available} available"
  | .chunkTooLarge length max => s!"Payload too large: {length} bytes (max {max})"
  | .nameTooLong length max => s!"start type name is {length} bytes, field holds {max}"
  | .unsupportedLegacyFormat version subVersion =>
      let outer := version.toNat
      let inner := subVersion.toNat
      s!"Unsupported legacy object format (version {outer}, sub-version {inner})"
  | .unknownOpcode code =>
      let code := code.toNat
      s!"Unknown frame opcode: {code}"
  | .nestingTooDeep limit => s!"Nested objects exceed depth limit of {limit}"

end Fault

end WireCapture
