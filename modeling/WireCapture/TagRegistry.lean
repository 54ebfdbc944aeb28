import WireCapture.Entity

/-!
# Type registries

A type registry holds what the entities under each type tag are decoded with: the
reader of their record, or the name of a routine that does all of it. It holds every
tag once; asking for a second entry under a tag is refused.
-/
namespace WireCapture

/-- Reads the record of an entity that is nested at the given level. -/
abbrev RecordReader := Nat → Reader Record

structure TagRegistry (δ : Type) where
  /-- In the order of registration. -/
  entries : List (Tag × δ)
  distinct : (entries.map Prod.fst).Nodup

structure DuplicateTag where
  tag : Tag
  deriving DecidableEq, Repr

def DuplicateTag.message (d : DuplicateTag) : String :=
  "type tag " ++ d.tag.text ++ " registered twice"

namespace TagRegistry

variable {δ : Type}

def empty : TagRegistry δ := ⟨[], List.nodup_nil⟩

def find? (r : TagRegistry δ) (tag : Tag) : Option δ :=
  (r.entries.find? fun e => e.1 = tag).map Prod.snd

def contains (r : TagRegistry δ) (tag : Tag) : Bool := (r.find? tag).isSome

def lookup (r : TagRegistry δ) (tag : Tag) : Except Fault δ :=
  match r.find? tag with
  | some d => .ok d
  | none => .error (.unknownType tag)

def tags (r : TagRegistry δ) : List Tag := Tag.sort (r.entries.map Prod.fst)

def register (r : TagRegistry δ) (tag : Tag) (d : δ) :
    Except DuplicateTag (TagRegistry δ) :=
  if h : tag ∈ r.entries.map Prod.fst then .error ⟨tag⟩
  else .ok ⟨r.entries ++ [(tag, d)], by
    rw [List.map_append, List.nodup_append]
    refine ⟨r.distinct, by simp, ?_⟩
    intro a ha b hb
    simp only [List.map_cons, List.map_nil, List.mem_singleton] at hb
    exact fun hab => h (hb ▸ hab ▸ ha)⟩

def ofList (entries : List (Tag × δ)) : Except DuplicateTag (TagRegistry δ) :=
  entries.foldlM (fun r e => r.register e.1 e.2) empty

def defaultTag : Tag := ⟨"DefaultXfer"⟩
def armorTag : Tag := ⟨"ArmorXfer"⟩
def weaponTag : Tag := ⟨"WeaponXfer"⟩

/-- The reader of a kind does not depend on the level. -/
def ofKind (kind : Kind) : RecordReader := fun _ => Record.reader kind

/-- The three kinds under their own tags. -/
def standard : TagRegistry RecordReader where
  entries := [(defaultTag, ofKind .default), (armorTag, ofKind .armor),
    (weaponTag, ofKind .weapon)]
  distinct := by simp [defaultTag, armorTag, weaponTag]

end TagRegistry

end WireCapture
