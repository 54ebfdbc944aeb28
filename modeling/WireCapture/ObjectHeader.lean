import WireCapture.ScriptBinding

/-!
# Object headers

The header that every entity record starts with. The version of the record picks
the layout: from 40 on a version of the header's own follows, and only its
values 61 to 64 have a layout; below 40 the record's version gates the fields of
an older layout.
-/
namespace WireCapture

structure ObjectHeader where
  version : UInt16 := 0
  extent : UInt32 := 0
  id : UInt32 := 0
  x : Single := .zero
  y : Single := .zero
  present : Bool := false
  flags : UInt32 := 0
  name : String := ""
  team : UInt8 := 0
  subCount : UInt8 := 0
  ownedIds : List UInt32 := []
  anim : UInt32 := 0
  script : Option ScriptBinding := none
  deadFrame : Option Int32 := none
  deriving DecidableEq, Repr

namespace ObjectHeader

/-- A 16-bit count, then as many identifiers. A shortfall of identifiers leaves
the count consumed. -/
def ownedIdsReader : Reader (List UInt32) := do
  let count ← Reader.u16
  let bs ← Reader.take (count.toNat * 4)
  return (Word.split 4 count.toNat bs).map UInt32.ofNat

/-- The fields after a set presence flag. -/
def presentReader (head : ObjectHeader) : Reader ObjectHeader := do
  let flags ← Reader.u32
  let name ← Reader.countedText 1
  let team ← Reader.u8
  let subCount ← Reader.u8
  let ownedIds ← ownedIdsReader
  let anim ← Reader.u32
  let script ← Reader.gated (63 ≤ head.version) ScriptBinding.reader
  let deadFrame ← Reader.gated (64 ≤ head.version) Reader.i32
  return { head with flags, name, team, subCount, ownedIds, anim, script, deadFrame }

/-- The layout of sub-versions 61 to 64, which a cleared presence flag ends early. -/
def currentReader (version : UInt16) : Reader ObjectHeader := do
  let extent ← Reader.u32
  let id ← Reader.u32
  let x ← Reader.single
  let y ← Reader.single
  let flag ← Reader.u8
  let head : ObjectHeader := { version, extent, id, x, y, present := flag != 0 }
  if flag = 0 then return head else presentReader head

/-- A coordinate of the older layout: an integer below version 5. -/
def legacyCoordinate (version : UInt16) : Reader Single :=
  if version < 5 then (fun n => Single.ofInt n.toInt) <$> Reader.i32 else Reader.single

/-- The layout below version 40. -/
def legacyReader (version : UInt16) : Reader ObjectHeader := do
  let extent ← Reader.u32
  let flags ← Reader.u32
  let x ← legacyCoordinate version
  let y ← legacyCoordinate version
  let name ← Reader.gated (10 ≤ version) (Reader.countedText 1)
  let team ← Reader.gated (20 ≤ version) Reader.u8
  let subCount ← Reader.gated (30 ≤ version) Reader.u8
  return { version, extent, flags, x, y, present := true
           name := name.getD "", team := team.getD 0, subCount := subCount.getD 0 }

/-- The header of a record of the given version. -/
def reader (version : UInt16) : Reader ObjectHeader :=
  if version < 40 then legacyReader version
  else do
    let subVersion ← Reader.version .header
    if subVersion < 61 then throw (.unsupportedLegacyFormat version subVersion)
    else currentReader subVersion

end ObjectHeader

end WireCapture
