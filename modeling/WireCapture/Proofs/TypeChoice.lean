import WireCapture.Inspection
import WireCapture.Proofs.DepthLimit
import WireCapture.Proofs.LatestRows

/-!
# Choosing the outermost type

The type of the outermost entity is given by its tag, or by a name or a number that a
table of object types turns into a tag. All ways go through the same rule: a latest row
with a tag that is not empty leads to this tag, and everything else is no mapping. The
rule holds for introducers too, and where the tool applies it before decoding starts.
-/
namespace WireCapture

namespace ObjectMapping

end ObjectMapping

namespace ObjectTable

variable {rows : List ObjectRow} {row : ObjectRow}

end ObjectTable

namespace Decoder

variable (rules : DecodeRules) (type : TypeRef) {tag : Tag} {e : Fault}

section Introducers

variable (objects : ObjectMapping) {version : UInt16} {c c' : Cursor}

end Introducers

section Answers

variable {rules : DecodeRules} {own : Record} {s : Session} {c : Cursor}
  {answer : Except Fault Tag}

end Answers

variable {s : Settings}

namespace Sample

/-- The second row replaces the first; the tag of the third is empty. -/
def dustSettings : Settings where
  maxDepth := 0
  objectTypes :=
    [⟨1, "dust", TagRegistry.armorTag⟩, ⟨4, "dust", TagRegistry.defaultTag⟩, ⟨5, "void", ⟨""⟩⟩]

def dustCapture : Bytes := [3, 0, 0, 0, 0, 0, 0, 0, 0, 0, 254, 255, 255, 255, 3, 0, 0, 0]

end Sample

end Decoder

end WireCapture
