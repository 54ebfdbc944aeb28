import WireCapture.Entity.Decoder

/-!
# Decoding routines

A routine decodes the entities of one type. It is told where its entity stands: what the
type registry answers, which object types there are, the level and the limit. It may do
anything with that: leave children unread, keep what it likes when it fails, and call every
routine in every context, itself too. Calls may therefore be nested without an end, and
they are followed as deep as the caller says. A record reader makes the routine that reads
its record and then all children.
-/
namespace WireCapture

variable {δ : Type}

/-- What a type registry answers. Its entries are routines, by their names in `δ`, and a
routine learns about the registry from these answers only. -/
structure TypeMapping (δ : Type) where
  contains : Tag → Bool
  lookup : Tag → Except Fault δ
  tags : List Tag

def TagRegistry.mapping (r : TagRegistry δ) : TypeMapping δ := ⟨r.contains, r.lookup, r.tags⟩

/-- Where an entity stands, as a routine is told. -/
structure DecodeContext (δ : Type) where
  types : TypeMapping δ
  objects : ObjectMapping
  level : Nat := 0
  limit : Nat := 64

/-- What comes of calling a routine, which is given by its name, in a context. -/
abbrev Calls (δ : Type) := δ → DecodeContext δ → Decoder Entity

/-- Decodes one entity in a context, given what calls come to. -/
abbrev Routine (δ : Type) := (call : Calls δ) → DecodeContext δ → Decoder Entity

/-- Calls nested up to `depth` deep. Those below are left to `beyond`. -/
def Calls.upTo (routines : δ → Routine δ) (beyond : Calls δ) : (depth : Nat) → Calls δ
  | 0 => beyond
  | depth + 1 => fun name => routines name (upTo routines beyond depth)

namespace DecodeContext

/-- One entity of type `tag`. -/
def decode (ctx : DecodeContext δ) (call : Calls δ) (tag : Tag) : Decoder Entity := do
  let name ← Decoder.ofExcept (ctx.types.lookup tag)
  Decoder.enter tag ctx.level
  call name ctx

/-- The context of children, unless the limit is reached. -/
def nested? (ctx : DecodeContext δ) : Option (DecodeContext δ) :=
  if ctx.level < ctx.limit then some { ctx with level := ctx.level + 1 } else none

/-- The entity whose type is given. -/
def decodeAs (ctx : DecodeContext δ) (call : Calls δ) (type : TypeRef) : Decoder Entity := do
  let tag ← Decoder.ofExcept (type.resolve ctx.objects)
  ctx.decode call tag

end DecodeContext

/-- Reads a record, then the children that it asks for. -/
def RecordReader.routine (read : RecordReader) : Routine δ := fun call ctx => do
  let own ← Decoder.lift (read ctx.level)
  let child := ctx.nested?.map fun inner => inner.decode call
  Decoder.below { objects := ctx.objects, limit := ctx.limit } child own

end WireCapture
