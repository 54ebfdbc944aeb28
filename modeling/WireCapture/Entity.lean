import WireCapture.ObjectHeader

/-!
# Entity snapshots

An entity is a record with nested entities below it. A record is what the entity
itself stores: its version, the object header and, for armor and weapons, the
fields of a piece of gear.
-/
namespace WireCapture

inductive Kind
  | default
  | armor
  | weapon
  deriving DecidableEq, Repr

namespace Kind

def label : Kind → String
  | .default => "Default"
  | .armor => "Armor"
  | .weapon => "Weapon"

def versioned : Kind → Versioned
  | .default => .default
  | .armor => .armor
  | .weapon => .weapon

end Kind

/-- Trailing fields of armor and weapons. -/
structure Gear where
  modifiers : List String
  health : Option UInt32
  val13 : Option UInt8
  val14 : Option UInt32
  deriving DecidableEq, Repr

namespace Gear

/-- The versions at which trailing fields appear: `val13` at exactly one version,
`val14` from one on, and possibly a second health that replaces the first. -/
structure Layout where
  val13At : UInt16
  val14From : UInt16
  healthAgainFrom : Option UInt16
  deriving DecidableEq, Repr

def armorLayout : Layout := ⟨61, 62, none⟩

def weaponLayout : Layout := ⟨63, 64, some 61⟩

def Layout.repeatsHealth (l : Layout) (version : UInt16) : Bool :=
  l.healthAgainFrom.any (· ≤ version)

/-- Four modifier names. -/
def modifiersReader : Reader (List String) := do
  let a ← Reader.countedText 1
  let b ← Reader.countedText 1
  let c ← Reader.countedText 1
  let d ← Reader.countedText 1
  return [a, b, c, d]

def reader (l : Layout) (version : UInt16) : Reader Gear := do
  let modifiers ← Reader.gated (11 ≤ version) modifiersReader
  let health ← Reader.gated (42 ≤ version) Reader.u32
  let again ← Reader.gated (l.repeatsHealth version) Reader.u32
  let val13 ← Reader.gated (version == l.val13At) Reader.u8
  let val14 ← Reader.gated (l.val14From ≤ version) Reader.u32
  return { modifiers := modifiers.getD [], health := again.or health, val13, val14 }

end Gear

inductive Body
  | default
  | armor (gear : Gear)
  | weapon (gear : Gear)
  deriving DecidableEq, Repr

namespace Body

def kind : Body → Kind
  | .default => .default
  | .armor _ => .armor
  | .weapon _ => .weapon

def gear? : Body → Option Gear
  | .default => none
  | .armor g => some g
  | .weapon g => some g

def reader (version : UInt16) : Kind → Reader Body
  | .default => pure .default
  | .armor => .armor <$> Gear.reader Gear.armorLayout version
  | .weapon => .weapon <$> Gear.reader Gear.weaponLayout version

end Body

structure Record where
  version : UInt16
  header : ObjectHeader
  body : Body
  deriving DecidableEq, Repr

def Record.reader (kind : Kind) : Reader Record := do
  let version ← Reader.version kind.versioned
  let header ← ObjectHeader.reader version
  let body ← Body.reader version kind
  return { version, header, body }

inductive Entity
  | node (own : Record) (sub : List Entity)
  deriving Repr

namespace Entity

def own : Entity → Record
  | .node r _ => r

def sub : Entity → List Entity
  | .node _ es => es

mutual

/-- An entity and all below it, each before its children, with their levels. -/
def preorder (level : Nat) : Entity → List (Nat × Entity)
  | .node r es => (level, .node r es) :: preorderAll (level + 1) es

def preorderAll (level : Nat) : List Entity → List (Nat × Entity)
  | [] => []
  | e :: es => preorder level e ++ preorderAll level es

end

/-- Number of entities in the tree. -/
def size (e : Entity) : Nat := (e.preorder 0).length

end Entity

end WireCapture
