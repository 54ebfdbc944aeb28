import Mathlib.Data.List.Nodup
import Mathlib.Data.List.Perm.Basic
import Mathlib.Tactic.Tauto
import WireCapture.ObjectTable

/-!
# Rows that later rows replace

A table is built by inserting rows one after the other. A row stays until a later one
has its number or its name, so what a table holds in the end are the latest rows, and
both maps answer with the tags of these and of no other row.
-/
namespace WireCapture.ObjectTable

/-- The rows that no later row replaces. -/
def latest : List ObjectRow → List ObjectRow
  | [] => []
  | row :: rows =>
      if ∀ later ∈ rows, row.Apart later then row :: latest rows else latest rows

variable {row r : ObjectRow} {rows : List ObjectRow}

theorem mem_latest_cons : r ∈ latest (row :: rows) ↔
    r ∈ latest rows ∨ r = row ∧ ∀ later ∈ rows, r.Apart later := by
  rw [latest]
  split
  · rename_i hrow
    constructor
    · intro h
      rcases List.mem_cons.mp h with rfl | h
      · exact .inr ⟨rfl, hrow⟩
      · exact .inl h
    · rintro (h | ⟨rfl, -⟩)
      · exact List.mem_cons_of_mem _ h
      · exact List.mem_cons_self
  · rename_i hrow
    refine ⟨.inl, ?_⟩
    rintro (h | ⟨rfl, h⟩)
    · exact h
    · exact absurd h hrow

theorem mem_latest_append {before after : List ObjectRow} : r ∈ latest (before ++ after) ↔
    r ∈ latest after ∨ r ∈ latest before ∧ ∀ later ∈ after, r.Apart later := by
  induction before with
  | nil => simp [latest]
  | cons row before ih =>
      rw [List.cons_append, mem_latest_cons, mem_latest_cons, ih]
      simp only [List.forall_mem_append]
      tauto

theorem latest_eq_nil_iff : latest rows = [] ↔ rows = [] := by
  induction rows with
  | nil => simp [latest]
  | cons row rows ih =>
      by_cases hrows : rows = []
      · simp [hrows, latest]
      · have hlatest : latest rows ≠ [] := fun h => hrows (ih.mp h)
        rw [latest]
        split <;> simp [hlatest]

theorem latest_sublist (rows : List ObjectRow) : (latest rows).Sublist rows := by
  induction rows with
  | nil => exact .slnil
  | cons row rows ih =>
      rw [latest]
      split
      · exact ih.cons_cons row
      · exact ih.cons row

theorem nodup_latest (rows : List ObjectRow) : (latest rows).Nodup := by
  induction rows with
  | nil => exact List.nodup_nil
  | cons row rows ih =>
      rw [latest]
      split
      · rename_i hrow
        apply List.nodup_cons.mpr
        refine ⟨fun hmem => ?_, ih⟩
        exact (hrow row ((latest_sublist rows).mem hmem)).1 rfl
      · exact ih

variable {t : ObjectTable}

theorem not_holds_empty : ¬ empty.Holds row := by
  simp [Holds, empty, Dictionary.find?_empty]

/-- A table keeps what it holds as long as no row replaces it. -/
theorem holds_foldl_insert : (rows.foldl insert t).Holds r ↔
    r ∈ latest rows ∨ t.Holds r ∧ ∀ later ∈ rows, r.Apart later := by
  induction rows generalizing t with
  | nil => simp [latest]
  | cons row rows ih =>
      rw [List.foldl_cons, ih, holds_insert, mem_latest_cons, List.forall_mem_cons]
      tauto

theorem holds_ofRows : (ofRows rows).Holds r ↔ r ∈ latest rows := by
  simp [ofRows, holds_foldl_insert, not_holds_empty]

theorem byId_eq_some_iff {id : UInt16} {tag : Tag} :
    t.mapping.byId id = some tag ↔ ∃ row, t.Holds row ∧ row.id = id ∧ row.tag = tag := by
  change (t.entryById.find? id).map Prod.snd = some tag ↔ _
  rw [Option.map_eq_some_iff]
  constructor
  · rintro ⟨e, hentry, rfl⟩
    exact ⟨⟨id, e.1, e.2⟩, hentry, rfl, rfl⟩
  · rintro ⟨row, hrow, rfl, rfl⟩
    exact ⟨_, hrow, rfl⟩

/-- A name leads to the tag by way of its number. -/
theorem byName_eq_some_iff {name : String} {tag : Tag} :
    t.mapping.byName name = some tag ↔ ∃ row, t.Holds row ∧ row.name = name ∧ row.tag = tag := by
  change (t.idByName.find? name).bind t.mapping.byId = some tag ↔ _
  rw [Option.bind_eq_some_iff]
  constructor
  · rintro ⟨id, hname, htag⟩
    obtain ⟨row, hrow, rfl, rfl⟩ := byId_eq_some_iff.mp htag
    obtain ⟨tag, hentry⟩ := (t.inverse name row.id).mp hname
    have hsame := hentry.symm.trans hrow
    simp only [Option.some.injEq] at hsame
    exact ⟨row, hrow, (Prod.mk.inj hsame).1.symm, rfl⟩
  · rintro ⟨row, hrow, rfl, rfl⟩
    have hname := (t.inverse row.name row.id).mpr ⟨row.tag, hrow⟩
    exact ⟨row.id, hname, byId_eq_some_iff.mpr ⟨row, hrow, rfl, rfl⟩⟩

/-- The rows of a table, one for each number. -/
def toRows (t : ObjectTable) : List ObjectRow :=
  t.entryById.entries.map fun e => ⟨e.1, e.2.1, e.2.2⟩

theorem mem_toRows : row ∈ t.toRows ↔ t.Holds row := by
  rw [Holds, Dictionary.find?_eq_some_iff, toRows, List.mem_map]
  constructor
  · rintro ⟨e, he, rfl⟩
    exact he
  · exact fun h => ⟨_, h, rfl⟩

theorem nodup_toRows (t : ObjectTable) : t.toRows.Nodup := by
  apply List.Nodup.of_map ObjectRow.id
  have hids : t.toRows.map ObjectRow.id = t.entryById.entries.map Prod.fst := by simp [toRows]
  rw [hids]
  exact t.entryById.distinct

theorem toRows_perm_latest (rows : List ObjectRow) : (ofRows rows).toRows.Perm (latest rows) := by
  apply (List.perm_ext_iff_of_nodup (nodup_toRows _) (nodup_latest rows)).mpr
  simp [mem_toRows, holds_ofRows]

theorem size_ofRows (rows : List ObjectRow) : (ofRows rows).size = (latest rows).length := by
  have hlength := (toRows_perm_latest rows).length_eq
  rw [toRows, List.length_map] at hlength
  exact hlength

theorem isEmpty_ofRows : (ofRows rows).isEmpty = true ↔ rows = [] := by
  change (ofRows rows).entryById.entries.isEmpty = true ↔ _
  rw [List.isEmpty_iff_length_eq_zero, ← latest_eq_nil_iff, ← List.length_eq_zero_iff,
    ← size_ofRows]
  rfl

theorem byId_ofRows {id : UInt16} {tag : Tag} : (ofRows rows).mapping.byId id = some tag ↔
    ∃ row ∈ latest rows, row.id = id ∧ row.tag = tag := by
  simp [byId_eq_some_iff, holds_ofRows]

theorem byName_ofRows {name : String} {tag : Tag} :
    (ofRows rows).mapping.byName name = some tag ↔
      ∃ row ∈ latest rows, row.name = name ∧ row.tag = tag := by
  simp [byName_eq_some_iff, holds_ofRows]

/-- What still shares a key with a replaced row came later. -/
theorem mem_latest_of_replaced {before after : List ObjectRow}
    (hreplaced : ∃ later ∈ after, later.id = row.id ∨ later.name = row.name)
    (hr : r ∈ latest (before ++ row :: after)) (hkey : r.id = row.id ∨ r.name = row.name) :
    r ∈ latest after := by
  rw [mem_latest_append, mem_latest_cons] at hr
  rcases hr with (h | ⟨rfl, hall⟩) | ⟨-, hall⟩
  · exact h
  · obtain ⟨later, hlater, hsame⟩ := hreplaced
    obtain ⟨hid, hname⟩ := hall later hlater
    simp [hid.symm, hname.symm] at hsame
  · obtain ⟨hid, hname⟩ := hall row List.mem_cons_self
    simp [hid, hname] at hkey

/-- A table built from rows holds the latest of them. Its maps are inverse to each other,
they lead to the tags of the latest rows and to no others, and the keys of a replaced row
lead nowhere or to a row that came after it. -/
theorem ofRows_holds_latest (rows : List ObjectRow) :
    let t := ofRows rows
    (∀ name id, t.idByName.find? name = some id ↔
      ∃ tag, t.entryById.find? id = some (name, tag)) ∧
    (∀ id tag, t.mapping.byId id = some tag ↔
      ∃ row ∈ latest rows, row.id = id ∧ row.tag = tag) ∧
    (∀ name tag, t.mapping.byName name = some tag ↔
      ∃ row ∈ latest rows, row.name = name ∧ row.tag = tag) ∧
    t.size = (latest rows).length ∧ (t.isEmpty = true ↔ rows = []) ∧
    (∀ row ∈ latest rows, t.mapping.byId row.id = some row.tag ∧
      t.mapping.byName row.name = some row.tag) ∧
    ∀ before row after, rows = before ++ row :: after →
      (∃ later ∈ after, later.id = row.id ∨ later.name = row.name) →
      (∀ tag, t.mapping.byId row.id = some tag →
        ∃ later ∈ latest after, later.id = row.id ∧ later.tag = tag) ∧
      (∀ tag, t.mapping.byName row.name = some tag →
        ∃ later ∈ latest after, later.name = row.name ∧ later.tag = tag) := by
  intro t
  refine ⟨t.inverse, fun _ _ => byId_ofRows, fun _ _ => byName_ofRows, size_ofRows rows,
    isEmpty_ofRows, ?_, ?_⟩
  · intro row hrow
    exact ⟨byId_ofRows.mpr ⟨row, hrow, rfl, rfl⟩, byName_ofRows.mpr ⟨row, hrow, rfl, rfl⟩⟩
  · rintro before row after rfl hreplaced
    constructor
    · intro tag htag
      obtain ⟨later, hlater, hid, rfl⟩ := byId_ofRows.mp htag
      exact ⟨later, mem_latest_of_replaced hreplaced hlater (.inl hid), hid, rfl⟩
    · intro tag htag
      obtain ⟨later, hlater, hname, rfl⟩ := byName_ofRows.mp htag
      exact ⟨later, mem_latest_of_replaced hreplaced hlater (.inr hname), hname, rfl⟩

namespace Sample

/-- The third row replaces the two before it, one by its number and one by its name. -/
def crossed : List ObjectRow :=
  [⟨1, "crate", ⟨"A"⟩⟩, ⟨2, "barrel", ⟨"B"⟩⟩, ⟨1, "barrel", ⟨"C"⟩⟩, ⟨3, "crate", ⟨"D"⟩⟩]

end Sample

open Sample in
theorem ofRows_holds_latest_crossed :
    latest crossed = [⟨1, "barrel", ⟨"C"⟩⟩, ⟨3, "crate", ⟨"D"⟩⟩] ∧ (ofRows crossed).size = 2 ∧
    ((ofRows crossed).mapping.byId 3 = some ⟨"D"⟩ ∧
      (ofRows crossed).mapping.byName "crate" = some ⟨"D"⟩) ∧
    (ofRows crossed).mapping.byId 2 = none := by
  have hlatest : latest crossed = [⟨1, "barrel", ⟨"C"⟩⟩, ⟨3, "crate", ⟨"D"⟩⟩] := by decide
  obtain ⟨-, -, -, hsize, -, hrows, hreplaced⟩ := ofRows_holds_latest crossed
  rw [hlatest] at hsize hrows
  refine ⟨hlatest, hsize, hrows ⟨3, "crate", ⟨"D"⟩⟩ (by simp), ?_⟩
  have hbarrel := (hreplaced [⟨1, "crate", ⟨"A"⟩⟩] ⟨2, "barrel", ⟨"B"⟩⟩ _ rfl
    ⟨⟨1, "barrel", ⟨"C"⟩⟩, by simp, by simp⟩).1
  apply Option.eq_none_iff_forall_ne_some.mpr
  intro tag htag
  obtain ⟨later, hlater, hid, -⟩ := hbarrel tag htag
  have hafter : latest [⟨1, "barrel", ⟨"C"⟩⟩, ⟨3, "crate", ⟨"D"⟩⟩] =
      [⟨1, "barrel", ⟨"C"⟩⟩, ⟨3, "crate", ⟨"D"⟩⟩] := by decide
  rw [hafter] at hlater
  simp only [List.mem_cons, List.not_mem_nil, or_false] at hlater
  rcases hlater with rfl | rfl <;> simp at hid

end WireCapture.ObjectTable
