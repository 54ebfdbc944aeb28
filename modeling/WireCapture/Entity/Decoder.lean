import WireCapture.TagRegistry
import WireCapture.ObjectTable

/-!
# Decoding entity trees

An entity is its record followed by as many nested entities as the header says,
each after an introducer that names its object type. Levels are limited: an
entity at the limit must have no nested entity. When a nested entity fails, the
failure keeps the enclosing entity with the children that came before.
-/
namespace WireCapture

structure DecodeFailure where
  fault : Fault
  /-- The outermost entity, once its record has been read. -/
  kept : Option Entity
  deriving Repr

/-- An entity that decoding entered through its tag. -/
structure Visit where
  tag : Tag
  offset : Nat
  level : Nat
  deriving DecidableEq, Repr

/-- A cursor, and the visits so far with the latest first. -/
structure Session where
  cursor : Cursor
  visits : List Visit
  deriving DecidableEq, Repr

abbrev Decoder := EStateM DecodeFailure Session

structure DecodeRules where
  types : TagRegistry RecordReader := .standard
  objects : ObjectMapping
  limit : Nat := 64

namespace Decoder

variable {α : Type}

def lift (r : Reader α) : Decoder α := fun s =>
  match r s.cursor with
  | .ok a c => .ok a { s with cursor := c }
  | .error e c => .error ⟨e, none⟩ { s with cursor := c }

def ofExcept : Except Fault α → Decoder α
  | .ok a => pure a
  | .error e => throw ⟨e, none⟩

/-- Notes that the entity at the cursor is being decoded. -/
def enter (tag : Tag) (level : Nat) : Decoder Unit := fun s =>
  .ok () { s with visits := ⟨tag, s.cursor.pos, level⟩ :: s.visits }

/-- Keeps the given entity in a failure, in place of any other. -/
def keeping (e : Entity) (d : Decoder α) : Decoder α := fun s =>
  match d s with
  | .ok a s' => .ok a s'
  | .error f s' => .error ⟨f.fault, some e⟩ s'

/-- The tag of the next nested entity, introduced by a name below version 60 and
by a number from then on. -/
def introducer (objects : ObjectMapping) (version : UInt16) : Reader Tag :=
  if version < 60 then do
    let name ← Reader.countedText 1
    Reader.ofExcept (objects.tagOfName name)
  else do
    let id ← Reader.u16
    Reader.ofExcept (objects.tagOfId id)

/-- The entity that results from `n` more children after those in `done`, whose
latest comes first. -/
def children (objects : ObjectMapping) (own : Record) (child : Tag → Decoder Entity) :
    (n : Nat) → (done : List Entity) → Decoder Entity
  | 0, done => pure (.node own done.reverse)
  | n + 1, done => do
      let next ← keeping (.node own done.reverse) do
        let tag ← lift (introducer objects own.version)
        child tag
      children objects own child n (next :: done)

/-- What follows a record. Without a decoder for children there must be none. -/
def below (rules : DecodeRules) (child : Option (Tag → Decoder Entity))
    (own : Record) : Decoder Entity :=
  if own.header.subCount = 0 then pure (.node own [])
  else match child with
    | none => throw ⟨.nestingTooDeep rules.limit, some (.node own [])⟩
    | some child => children rules.objects own child own.header.subCount.toNat []

/-- One entity of type `tag`. -/
def entity (rules : DecodeRules) (level : Nat) (child : Option (Tag → Decoder Entity))
    (tag : Tag) : Decoder Entity := do
  let read ← ofExcept (rules.types.lookup tag)
  enter tag level
  let own ← lift (read level)
  below rules child own

/-- An entity with `room` levels left below it. -/
def within (rules : DecodeRules) : (room : Nat) → Tag → Decoder Entity
  | 0, tag => entity rules rules.limit none tag
  | room + 1, tag => entity rules (rules.limit - (room + 1)) (some (within rules room)) tag

/-- Children of an entity with `room` levels left below it. -/
def nested (rules : DecodeRules) : (room : Nat) → Option (Tag → Decoder Entity)
  | 0 => none
  | room + 1 => some (within rules room)

/-- The outermost entity, of type `tag`. -/
def ofTag (rules : DecodeRules) (tag : Tag) : Decoder Entity := within rules rules.limit tag

/-- The outermost entity, whose object type is given by name. -/
def ofObjectName (rules : DecodeRules) (name : String) : Decoder Entity := do
  let tag ← ofExcept (rules.objects.tagOfName name)
  ofTag rules tag

/-- The outermost entity, whose object type is given by number. -/
def ofObjectId (rules : DecodeRules) (id : UInt16) : Decoder Entity := do
  let tag ← ofExcept (rules.objects.tagOfId id)
  ofTag rules tag

/-- The outermost entity, of a kind that needs no tag. -/
def ofKind (rules : DecodeRules) (kind : Kind) : Decoder Entity := do
  let own ← lift (Record.reader kind)
  below rules (nested rules rules.limit) own

end Decoder

/-- How the type of the outermost entity is given. -/
inductive TypeRef
  | tag (tag : Tag)
  | objectName (name : String)
  | objectId (id : UInt16)
  deriving DecidableEq, Repr

/-- The tag that a type stands for. -/
def TypeRef.resolve (objects : ObjectMapping) : TypeRef → Except Fault Tag
  | .tag t => .ok t
  | .objectName n => objects.tagOfName n
  | .objectId i => objects.tagOfId i

def TypeRef.decoder (rules : DecodeRules) : TypeRef → Decoder Entity
  | .tag t => Decoder.ofTag rules t
  | .objectName n => Decoder.ofObjectName rules n
  | .objectId i => Decoder.ofObjectId rules i

theorem TypeRef.decoder_eq (rules : DecodeRules) (type : TypeRef) : type.decoder rules =
    Decoder.ofExcept (type.resolve rules.objects) >>= Decoder.ofTag rules := by
  cases type <;> rfl

structure DecodeOutcome where
  result : Except DecodeFailure Entity
  cursor : Cursor
  /-- In the order in which entities were entered. -/
  visits : List Visit

/-- Runs a decoder at the start of a capture. -/
def Decoder.run (d : Decoder Entity) (data : Bytes) : DecodeOutcome :=
  match d ⟨.ofBytes data, []⟩ with
  | .ok e s => ⟨.ok e, s.cursor, s.visits.reverse⟩
  | .error f s => ⟨.error f, s.cursor, s.visits.reverse⟩

end WireCapture
