import WireCapture.Proofs.EntityLayout

/-!
# Entity trees in a capture

Every nested entity follows its introducer: a name below version 60 of the parent
and a number from then on. Which introducers stand in the capture the entities do
not say, so a written tree carries them beside its records. Decoding a written
tree gives back its entities and stops behind it.
-/
namespace WireCapture

def Kind.tag : Kind → Tag
  | .default => TagRegistry.defaultTag
  | .armor => TagRegistry.armorTag
  | .weapon => TagRegistry.weaponTag

theorem Kind.lookup_tag (kind : Kind) :
    TagRegistry.standard.lookup kind.tag = .ok (TagRegistry.ofKind kind) := by
  cases kind <;> rfl

theorem Kind.tag_isEmpty (kind : Kind) : kind.tag.isEmpty = false := by
  cases kind <;> rfl

/-- The bytes of an introducer that leads to the tag, below a parent of the given version. -/
inductive LeadsTo (objects : ObjectMapping) (version : UInt16) (tag : Tag) : Bytes → Prop
  | name {field : Bytes} : version < 60 → field.length < 256 →
      objects.byName (Text.Utf8.cString field) = some tag →
      LeadsTo objects version tag (Word.bytes 1 field.length ++ field)
  | number {id : UInt16} : 60 ≤ version → objects.byId id = some tag →
      LeadsTo objects version tag (Word.bytes 2 id.toNat)

theorem LeadsTo.reads {objects : ObjectMapping} {version : UInt16} {tag : Tag} {lead : Bytes}
    (h : LeadsTo objects version tag lead) (ht : tag.isEmpty = false) :
    Reads (Decoder.introducer objects version) lead tag := by
  have hresolve : ∀ text, Reads (Reader.ofExcept (ObjectMapping.resolve (some tag) text)) [] tag := by
    intro text
    rw [ObjectMapping.resolve, ht]
    exact .pure tag
  rw [← List.append_nil lead]
  unfold Decoder.introducer
  cases h with
  | @name field hv hl hm =>
      have hr := hresolve (Text.Utf8.cString field)
      rw [← hm] at hr
      rw [if_pos hv]
      exact (Reader.reads_counted hl (Nat.mul_one _).symm).map.bind hr
  | @number id hv hm =>
      have hr := hresolve (toString id.toNat)
      rw [← hm] at hr
      rw [if_neg (UInt16.not_lt.mpr hv)]
      exact (Reader.reads_u16 id).bind hr

/-- What stands before a nested entity. -/
inductive Introducer
  | name (objectType : String)
  | number (id : UInt16)
  deriving DecidableEq, Repr

namespace Introducer

def bytes : Introducer → Bytes
  | .name s => Text.counted 1 s
  | .number id => Word.bytes 2 id.toNat

/-- Below a parent of the given version the introducer leads to the tag. -/
def Leads (objects : ObjectMapping) (version : UInt16) (tag : Tag) : Introducer → Prop
  | .name s => version < 60 ∧ Text.Fits 1 s ∧ objects.byName s = some tag
  | .number id => 60 ≤ version ∧ objects.byId id = some tag

theorem leadsTo_bytes {objects : ObjectMapping} {version : UInt16} {tag : Tag}
    {lead : Introducer} (h : lead.Leads objects version tag) :
    LeadsTo objects version tag lead.bytes := by
  cases lead with
  | name s =>
      obtain ⟨hv, hs, hm⟩ := h
      rw [← Text.Utf8.cString_encode hs.noNul] at hm
      exact .name hv hs.short hm
  | number id => exact .number h.1 h.2

end Introducer

namespace Entity

mutual

/-- How many levels there are below an entity. -/
def height : Entity → Nat
  | .node _ es => heightAll es

/-- How many levels some entities add to their parent. -/
def heightAll : List Entity → Nat
  | [] => 0
  | e :: es => max (height e + 1) (heightAll es)

end

theorem heightAll_le_iff {es : List Entity} {n : Nat} :
    heightAll es ≤ n ↔ ∀ e ∈ es, e.height < n := by
  induction es with
  | nil => simp [heightAll]
  | cons e es ih => rw [heightAll, Nat.max_le, ih, List.forall_mem_cons, Nat.succ_le_iff]

end Entity

/-- An entity is read from its record and, behind their introducers, its children. -/
theorem Decoder.reads_node {objects : ObjectMapping} {limit room : Nat} {ι : Type}
    {sub : List ι} {lead bytes : ι → Bytes} {tag : ι → Tag} {entity : ι → Entity}
    {own : Record} {front : Bytes} (hown : Reads (Record.reader own.body.kind) front own)
    (hcount : sub.length = own.header.subCount.toNat)
    (hlead : ∀ i ∈ sub, LeadsTo objects own.version (tag i) (lead i))
    (htag : ∀ i ∈ sub, (tag i).isEmpty = false)
    (hroom : (Entity.node own (sub.map entity)).height ≤ room)
    (hsub : ∀ i ∈ sub, ∀ {below}, (entity i).height ≤ below →
      Reads (within { objects, limit } below (tag i)) (bytes i) (entity i)) :
    Reads (within { objects, limit } room own.body.kind.tag)
      (front ++ sub.flatMap fun i => lead i ++ bytes i) (.node own (sub.map entity)) := by
  have hparts : ∀ p ∈ sub.map fun i => (lead i ++ bytes i, entity i),
      Reads (childStep { objects, limit } room own.version) p.1 p.2 := by
    intro p hp
    obtain ⟨i, hi, rfl⟩ := List.mem_map.mp hp
    have hheight := Entity.heightAll_le_iff.mp hroom (entity i) (List.mem_map_of_mem hi)
    obtain ⟨room, rfl⟩ := Nat.exists_eq_add_one_of_ne_zero (Nat.ne_zero_of_lt hheight)
    apply reads_childStep
    · exact (hlead i hi).reads (htag i hi)
    · exact hsub i hi (Nat.le_of_lt_succ hheight)
  have hr := reads_within own.body.kind.lookup_tag hown (by rw [List.length_map, hcount]) hparts
  simp only [List.flatMap_map, List.map_map] at hr
  exact hr

/-- An entity, the integers that may stand for its position, and the entities
below it after their introducers. -/
inductive WrittenEntity
  | node (own : Record) (grid : ObjectHeader.Grid) (sub : List (Introducer × WrittenEntity))

namespace WrittenEntity

def tag : WrittenEntity → Tag
  | .node own _ _ => own.body.kind.tag

theorem tag_isEmpty (t : WrittenEntity) : t.tag.isEmpty = false := by
  cases t with
  | node own _ _ => exact own.body.kind.tag_isEmpty

mutual

def bytes : WrittenEntity → Bytes
  | .node own grid sub => own.bytes grid ++ bytesAll sub

def bytesAll : List (Introducer × WrittenEntity) → Bytes
  | [] => []
  | (lead, t) :: sub => lead.bytes ++ bytes t ++ bytesAll sub

end

mutual

def entity : WrittenEntity → Entity
  | .node own _ sub => .node own (entities sub)

def entities : List (Introducer × WrittenEntity) → List Entity
  | [] => []
  | (_, t) :: sub => entity t :: entities sub

end

/-- Records that can be written, as many children as the header counts, and
introducers that lead to them. -/
inductive WellFormed (objects : ObjectMapping) : WrittenEntity → Prop
  | node {own : Record} {grid : ObjectHeader.Grid} {sub : List (Introducer × WrittenEntity)}
      (writable : own.Writable grid) (count : sub.length = own.header.subCount.toNat)
      (leads : ∀ p ∈ sub, p.1.Leads objects own.version p.2.tag)
      (below : ∀ p ∈ sub, WellFormed objects p.2) : WellFormed objects (.node own grid sub)

variable {objects : ObjectMapping}

theorem bytesAll_eq (sub : List (Introducer × WrittenEntity)) :
    bytesAll sub = sub.flatMap fun p => p.1.bytes ++ p.2.bytes := by
  induction sub with
  | nil => rfl
  | cons p sub ih => rw [bytesAll, ih, List.flatMap_cons]

theorem entities_eq (sub : List (Introducer × WrittenEntity)) :
    entities sub = sub.map fun p => p.2.entity := by
  induction sub with
  | nil => rfl
  | cons p sub ih => rw [entities, ih, List.map_cons]

theorem reads_within {t : WrittenEntity} (h : t.WellFormed objects) (limit : Nat) {room : Nat}
    (hroom : t.entity.height ≤ room) :
    Reads (Decoder.within { objects, limit } room t.tag) t.bytes t.entity := by
  induction h generalizing room with
  | @node own grid sub writable count leads below ih =>
      have hlead : ∀ p ∈ sub, LeadsTo objects own.version p.2.tag p.1.bytes :=
        fun p hp => Introducer.leadsTo_bytes (leads p hp)
      rw [entity, entities_eq] at hroom ⊢
      rw [bytes, bytesAll_eq]
      exact Decoder.reads_node (Record.reads_bytes writable) count hlead
        (fun p _ => p.2.tag_isEmpty) hroom ih

/-- Decoding a written tree gives its entities, whatever follows in the capture, and
stops behind the tree. -/
theorem decode_bytes {t : WrittenEntity} (h : t.WellFormed objects) {limit : Nat}
    (hlimit : t.entity.height ≤ limit) (tail : Bytes) :
    let outcome := (Decoder.ofTag { objects, limit } t.tag).run (t.bytes ++ tail)
    outcome.result = .ok t.entity ∧ outcome.cursor = ⟨t.bytes.length, tail⟩ := by
  obtain ⟨visits, hrun⟩ := Decoder.run_of_settles (reads_within h limit hlimit)
  change _ ∧ _
  rw [Decoder.ofTag, hrun tail]
  exact ⟨rfl, rfl⟩

end WrittenEntity

namespace Sample

/-- A vest that holds a blade. -/
def writtenVest : WrittenEntity := .node vest ⟨0, 0⟩ [(.number 9, .node blade ⟨0, 0⟩ [])]

/-- A crate that holds the vest and, at whole coordinates, dust. -/
def writtenCrate : WrittenEntity :=
  .node crate ⟨0, 0⟩ [(.name "vest", writtenVest), (.name "dust", .node dust ⟨-2, 3⟩ [])]

theorem wellFormed_of_leaf {own : Record} {grid : ObjectHeader.Grid} (h : own.Writable grid)
    (hcount : own.header.subCount = 0) : (WrittenEntity.node own grid []).WellFormed objects :=
  .node h (by rw [hcount]; rfl) (by simp) (by simp)

theorem writtenVest_wellFormed : writtenVest.WellFormed objects := by
  refine .node (by decide +kernel) rfl ?_ ?_
  · rw [List.forall_mem_singleton]
    exact ⟨by decide, rfl⟩
  · rw [List.forall_mem_singleton]
    exact wellFormed_of_leaf (by decide +kernel) rfl

theorem writtenCrate_wellFormed : writtenCrate.WellFormed objects := by
  refine .node (by decide +kernel) rfl ?_ ?_
  · rw [List.forall_mem_cons, List.forall_mem_singleton]
    exact ⟨⟨by decide, by decide +kernel, rfl⟩, by decide, by decide +kernel, rfl⟩
  · rw [List.forall_mem_cons, List.forall_mem_singleton]
    exact ⟨writtenVest_wellFormed, wellFormed_of_leaf (by decide +kernel) rfl⟩

end Sample

open Sample in
theorem WrittenEntity.decode_bytes_writtenCrate :
    writtenCrate.WellFormed objects ∧ writtenCrate.entity.height ≤ 2 ∧
    ∀ tail, ((Decoder.ofTag { objects, limit := 2 } TagRegistry.defaultTag).run
        (writtenCrate.bytes ++ tail)).result =
      .ok (.node crate [.node vest [.node blade []], .node dust []]) ∧
    ((Decoder.ofTag { objects, limit := 2 } TagRegistry.defaultTag).run
        (writtenCrate.bytes ++ tail)).cursor = ⟨157, tail⟩ := by
  have hheight : writtenCrate.entity.height ≤ 2 := by decide
  refine ⟨writtenCrate_wellFormed, hheight, fun tail => ?_⟩
  have hlength : writtenCrate.bytes.length = 157 := by decide +kernel
  have h := decode_bytes writtenCrate_wellFormed hheight tail
  rw [hlength] at h
  exact h

end WireCapture
