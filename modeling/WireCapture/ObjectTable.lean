import WireCapture.Dictionary
import WireCapture.Fault

/-!
# Object types

A capture names the types of nested entities by number or by name. The host's
mapping turns either into a type tag. An object table is such a mapping given by
rows; a new row replaces the rows that share its number or its name, so that
numbers and names both stay unique.
-/
namespace WireCapture

/-- How the host resolves object types. -/
structure ObjectMapping where
  byName : String → Option Tag
  byId : UInt16 → Option Tag

namespace ObjectMapping

def empty : ObjectMapping := ⟨fun _ => none, fun _ => none⟩

/-- An empty tag counts as no tag. -/
def resolve (tag : Option Tag) (objectType : String) : Except Fault Tag :=
  match tag with
  | some tag => if tag.isEmpty then .error (.noObjectMapping objectType) else .ok tag
  | none => .error (.noObjectMapping objectType)

def tagOfName (m : ObjectMapping) (name : String) : Except Fault Tag :=
  resolve (m.byName name) name

def tagOfId (m : ObjectMapping) (id : UInt16) : Except Fault Tag :=
  resolve (m.byId id) (toString id.toNat)

end ObjectMapping

structure ObjectRow where
  id : UInt16
  name : String
  tag : Tag
  deriving DecidableEq, Repr

namespace ObjectRow

/-- Rows that can stand in one table. -/
def Apart (a b : ObjectRow) : Prop := a.id ≠ b.id ∧ a.name ≠ b.name

instance (a b : ObjectRow) : Decidable (a.Apart b) :=
  inferInstanceAs (Decidable (_ ∧ _))

end ObjectRow

/-- The numbers of the names and the entries of the numbers are the same rows. -/
def Inverse (idByName : Dictionary String UInt16)
    (entryById : Dictionary UInt16 (String × Tag)) : Prop :=
  ∀ name id, idByName.find? name = some id ↔ ∃ tag, entryById.find? id = some (name, tag)

namespace Inverse

variable {idByName : Dictionary String UInt16}
  {entryById : Dictionary UInt16 (String × Tag)} {id : UInt16} {name : String}

theorem empty : Inverse .empty .empty := by
  intro name id
  simp [Dictionary.find?_empty]

/-- Rows with the same name have the same number, and the other way round. -/
theorem name_eq_iff (h : Inverse idByName entryById) (hrow : idByName.find? name = some id)
    {n : String} {i : UInt16} {tag : Tag} (hentry : entryById.find? i = some (n, tag)) :
    n = name ↔ i = id := by
  have hn := (h n i).mpr ⟨tag, hentry⟩
  obtain ⟨_, hid⟩ := (h name id).mp hrow
  constructor
  · rintro rfl
    simpa [hn] using hrow
  · rintro rfl
    simp_all

/-- Both maps forget a row. -/
theorem erase (h : Inverse idByName entryById) (hrow : idByName.find? name = some id) :
    Inverse (idByName.erase name) (entryById.erase id) := by
  intro n i
  simp only [Dictionary.find?_erase_eq_some_iff]
  rw [h n i]
  constructor
  · rintro ⟨hn, tag, htag⟩
    exact ⟨tag, fun hi => hn ((h.name_eq_iff hrow htag).mpr hi), htag⟩
  · rintro ⟨tag, hi, htag⟩
    exact ⟨fun hn => hi ((h.name_eq_iff hrow htag).mp hn), tag, htag⟩

/-- Both maps learn a row whose name and number are new. -/
theorem insert (h : Inverse idByName entryById) (hname : idByName.find? name = none)
    (hid : entryById.find? id = none) (tag : Tag) :
    Inverse (idByName.insert name id) (entryById.insert id (name, tag)) := by
  intro n i
  simp only [Dictionary.find?_insert_eq_some_iff]
  rw [h n i]
  constructor
  · rintro (⟨rfl, rfl⟩ | ⟨hn, t, ht⟩)
    · exact ⟨tag, .inl ⟨rfl, rfl⟩⟩
    · refine ⟨t, .inr ⟨?_, ht⟩⟩
      rintro rfl
      simp [hid] at ht
  · rintro ⟨t, ⟨rfl, ht⟩ | ⟨hi, ht⟩⟩
    · exact .inl ⟨(Prod.mk.inj ht).1.symm, rfl⟩
    · refine .inr ⟨?_, t, ht⟩
      rintro rfl
      have hn := (h n i).mpr ⟨t, ht⟩
      simp [hname] at hn

end Inverse

structure ObjectTable where
  idByName : Dictionary String UInt16
  entryById : Dictionary UInt16 (String × Tag)
  inverse : Inverse idByName entryById

namespace ObjectTable

def empty : ObjectTable := ⟨.empty, .empty, .empty⟩

/-- Without the row of a number, if there is one. -/
def eraseId (t : ObjectTable) (id : UInt16) : ObjectTable :=
  match h : t.entryById.find? id with
  | none => t
  | some (name, tag) =>
      { idByName := t.idByName.erase name
        entryById := t.entryById.erase id
        inverse := t.inverse.erase ((t.inverse name id).mpr ⟨tag, h⟩) }

/-- Without the row of a name, if there is one. -/
def eraseName (t : ObjectTable) (name : String) : ObjectTable :=
  match h : t.idByName.find? name with
  | none => t
  | some id =>
      { idByName := t.idByName.erase name
        entryById := t.entryById.erase id
        inverse := t.inverse.erase h }

/-- The rows of a table, found by number. -/
def Holds (t : ObjectTable) (row : ObjectRow) : Prop :=
  t.entryById.find? row.id = some (row.name, row.tag)

variable {t : ObjectTable} {row r : ObjectRow}

theorem holds_eraseId {id : UInt16} : (t.eraseId id).Holds r ↔ t.Holds r ∧ r.id ≠ id := by
  unfold eraseId Holds
  split
  · rename_i hid
    constructor
    · intro h
      refine ⟨h, ?_⟩
      rintro rfl
      simp [hid] at h
    · exact And.left
  · rw [Dictionary.find?_erase_eq_some_iff, and_comm]

theorem holds_eraseName {name : String} :
    (t.eraseName name).Holds r ↔ t.Holds r ∧ r.name ≠ name := by
  unfold eraseName Holds
  split
  · rename_i hname
    constructor
    · intro h
      refine ⟨h, ?_⟩
      rintro rfl
      have hid := (t.inverse r.name r.id).mpr ⟨r.tag, h⟩
      simp [hname] at hid
    · exact And.left
  · rename_i id hname
    rw [Dictionary.find?_erase_eq_some_iff, and_comm]
    refine and_congr_right fun h => not_congr ?_
    exact (t.inverse.name_eq_iff hname h).symm

theorem entryById_eq_none {id : UInt16} (h : ∀ r, t.Holds r → r.id ≠ id) :
    t.entryById.find? id = none := by
  cases hid : t.entryById.find? id with
  | none => rfl
  | some e => exact absurd rfl (h ⟨id, e.1, e.2⟩ hid)

theorem idByName_eq_none {name : String} (h : ∀ r, t.Holds r → r.name ≠ name) :
    t.idByName.find? name = none := by
  cases hname : t.idByName.find? name with
  | none => rfl
  | some id =>
      obtain ⟨tag, hentry⟩ := (t.inverse name id).mp hname
      exact absurd rfl (h ⟨id, name, tag⟩ hentry)

/-- Without the rows that share the number or the name of the given one. -/
def clear (t : ObjectTable) (row : ObjectRow) : ObjectTable :=
  (t.eraseId row.id).eraseName row.name

theorem holds_clear : (t.clear row).Holds r ↔ t.Holds r ∧ r.Apart row := by
  rw [clear, holds_eraseName, holds_eraseId, and_assoc, ObjectRow.Apart]

/-- Replaces the rows that share the number or the name of the new row. -/
def insert (t : ObjectTable) (row : ObjectRow) : ObjectTable where
  idByName := (t.clear row).idByName.insert row.name row.id
  entryById := (t.clear row).entryById.insert row.id (row.name, row.tag)
  inverse :=
    (t.clear row).inverse.insert
      (idByName_eq_none fun _ h => (holds_clear.mp h).2.2)
      (entryById_eq_none fun _ h => (holds_clear.mp h).2.1) row.tag

theorem holds_insert : (t.insert row).Holds r ↔ r = row ∨ t.Holds r ∧ r.Apart row := by
  have hclear : (t.clear row).Holds r ↔ t.Holds r ∧ r.Apart row := holds_clear
  change ((t.clear row).entryById.insert row.id (row.name, row.tag)).find? r.id = _ ↔ _
  rw [Dictionary.find?_insert_eq_some_iff, ← hclear]
  obtain ⟨id, name, tag⟩ := r
  obtain ⟨id', name', tag'⟩ := row
  constructor
  · rintro (⟨rfl, h⟩ | ⟨_, h⟩)
    · cases h
      exact .inl rfl
    · exact .inr h
  · rintro (h | h)
    · cases h
      exact .inl ⟨rfl, rfl⟩
    · exact .inr ⟨(hclear.mp h).2.1, h⟩

def ofRows (rows : List ObjectRow) : ObjectTable := rows.foldl insert empty

def size (t : ObjectTable) : Nat := t.entryById.size

def isEmpty (t : ObjectTable) : Bool := t.entryById.isEmpty

/-- A name leads to its number, and the number to the tag. -/
def mapping (t : ObjectTable) : ObjectMapping where
  byName name := (t.idByName.find? name).bind fun id => (t.entryById.find? id).map Prod.snd
  byId id := (t.entryById.find? id).map Prod.snd

end ObjectTable

end WireCapture
