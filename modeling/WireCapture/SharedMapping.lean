import WireCapture.Entity.Decoder

/-!
# The shared mapping

The mapping of object types that is used where none is given. It maps nothing
until one is installed, and it can be installed once.
-/
namespace WireCapture

structure SharedMapping where
  installed : Option ObjectMapping

namespace SharedMapping

def initial : SharedMapping := ⟨none⟩

def current (s : SharedMapping) : ObjectMapping := s.installed.getD .empty

/-- The mapping that is given, or else the shared one. -/
def chosen (s : SharedMapping) (given : Option ObjectMapping) : ObjectMapping :=
  given.getD s.current

/-- Decodes a capture with the mapping that is given, or else with the shared one. -/
def decode (s : SharedMapping) (types : TagRegistry RecordReader) (given : Option ObjectMapping)
    (type : TypeRef) (data : Bytes) : DecodeOutcome :=
  (type.decoder { types, objects := s.chosen given }).run data

/-- Whether the mapping was taken, and the state after. -/
def install (s : SharedMapping) (m : ObjectMapping) : Bool × SharedMapping :=
  match s.installed with
  | none => (true, ⟨some m⟩)
  | some _ => (false, s)

/-- An installation, or anything that asks the shared mapping. -/
inductive Step (α : Type)
  | install (m : ObjectMapping)
  | use (ask : SharedMapping → α)

inductive Answer (α : Type)
  | installed (taken : Bool)
  | used (a : α)

variable {α : Type}

def step (s : SharedMapping) : Step α → Answer α × SharedMapping
  | .install m =>
      let (taken, s) := s.install m
      (.installed taken, s)
  | .use ask => (.used (ask s), s)

def run (s : SharedMapping) : List (Step α) → List (Answer α) × SharedMapping
  | [] => ([], s)
  | x :: xs =>
      let (a, s) := s.step x
      let (as, s) := s.run xs
      (a :: as, s)

end SharedMapping

end WireCapture
