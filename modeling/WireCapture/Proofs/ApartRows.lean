import WireCapture.Proofs.LatestRows
import WireCapture.Settings

/-!
# Rows that stand apart

Rows of which no two share a number or a name are all kept, and other rows are not. Then
it makes no difference which of two lookups is asked, the first row with a name or the
table, nor in which order the rows stand.
-/
namespace WireCapture

namespace ObjectTable

variable {rows rows' : List ObjectRow} {row : ObjectRow}

/-- All rows are latest rows exactly when none is replaced. -/
theorem latest_eq_self_iff : latest rows = rows ↔ rows.Pairwise ObjectRow.Apart := by
  induction rows with
  | nil => simp [latest]
  | cons row rows ih =>
      rw [latest, List.pairwise_cons]
      split
      · rename_i hrow
        rw [List.cons_inj_right, ih]
        exact (and_iff_right hrow).symm
      · rename_i hrow
        refine iff_of_false (fun heq => ?_) fun h => hrow h.1
        have hlength := (latest_sublist rows).length_le
        rw [heq, List.length_cons] at hlength
        omega

/-- A row that is replaced is missing in the size. -/
theorem size_eq_length_iff :
    (ofRows rows).size = rows.length ↔ rows.Pairwise ObjectRow.Apart := by
  rw [size_ofRows, ← latest_eq_self_iff]
  exact ⟨(latest_sublist rows).eq_of_length, congrArg List.length⟩

theorem apart_of_perm (hperm : rows.Perm rows') (h : rows'.Pairwise ObjectRow.Apart) :
    rows.Pairwise ObjectRow.Apart :=
  (hperm.pairwise_iff fun h => ⟨h.1.symm, h.2.symm⟩).mpr h

theorem holds_of_apart (h : rows.Pairwise ObjectRow.Apart) :
    (ofRows rows).Holds row ↔ row ∈ rows := by
  rw [holds_ofRows, latest_eq_self_iff.mpr h]

/-- Only the rows count, not their order. -/
theorem mapping_of_perm (hperm : rows.Perm rows') (h : rows'.Pairwise ObjectRow.Apart) :
    (ofRows rows).mapping = (ofRows rows').mapping := by
  have hrows : ∀ row, (ofRows rows).Holds row ↔ (ofRows rows').Holds row := by
    intro row
    rw [holds_of_apart (apart_of_perm hperm h), holds_of_apart h, hperm.mem_iff]
  have hname : (ofRows rows).mapping.byName = (ofRows rows').mapping.byName := by
    funext name
    apply Option.ext
    intro tag
    simp only [byName_eq_some_iff, hrows]
  have hid : (ofRows rows).mapping.byId = (ofRows rows').mapping.byId := by
    funext id
    apply Option.ext
    intro tag
    simp only [byId_eq_some_iff, hrows]
  calc (ofRows rows).mapping
      = ⟨(ofRows rows).mapping.byName, (ofRows rows).mapping.byId⟩ := rfl
    _ = (ofRows rows').mapping := by rw [hname, hid]

end ObjectTable

namespace Settings

open ObjectTable

variable {s : Settings} {name : String} {row : ObjectRow}

theorem objectType?_eq_some_iff (h : s.objectTypes.Pairwise ObjectRow.Apart) :
    s.objectType? name = some row ↔ row ∈ s.objectTypes ∧ row.name = name :=
  find?_key_eq_some_iff (List.pairwise_map.mpr (h.imp And.right))

theorem byName_of_mem (h : s.objectTypes.Pairwise ObjectRow.Apart) (hrow : row ∈ s.objectTypes) :
    s.table.mapping.byName row.name = some row.tag :=
  byName_eq_some_iff.mpr ⟨row, (holds_of_apart h).mpr hrow, rfl, rfl⟩

theorem byId_of_mem (h : s.objectTypes.Pairwise ObjectRow.Apart) (hrow : row ∈ s.objectTypes) :
    s.table.mapping.byId row.id = some row.tag :=
  byId_eq_some_iff.mpr ⟨row, (holds_of_apart h).mpr hrow, rfl, rfl⟩

/-- The first row with a name has the tag that the table gives for it. -/
theorem map_objectType? (h : s.objectTypes.Pairwise ObjectRow.Apart) (name : String) :
    (s.objectType? name).map ObjectRow.tag = s.table.mapping.byName name := by
  apply Option.ext
  intro tag
  rw [Option.map_eq_some_iff]
  constructor
  · rintro ⟨row, hfind, rfl⟩
    obtain ⟨hrow, rfl⟩ := (objectType?_eq_some_iff h).mp hfind
    exact byName_of_mem h hrow
  · intro htag
    obtain ⟨row, hrow, hname, htag⟩ := byName_eq_some_iff.mp htag
    exact ⟨row, (objectType?_eq_some_iff h).mpr ⟨(holds_of_apart h).mp hrow, hname⟩, htag⟩

/-- Of rows that share a number or a name some are lost. Of rows that do not, each is found
by both its keys, the first row with a name is the one that the table finds, and the order
of the rows does not matter. -/
theorem lookups_of_apart (s : Settings) :
    (s.table.size = s.objectTypes.length ↔ s.objectTypes.Pairwise ObjectRow.Apart) ∧
    (s.objectTypes.Pairwise ObjectRow.Apart →
      (∀ name, (s.objectType? name).map ObjectRow.tag = s.table.mapping.byName name) ∧
      (∀ name row, s.objectType? name = some row →
        s.table.mapping.byId row.id = some row.tag) ∧
      (∀ row ∈ s.objectTypes, s.objectType? row.name = some row ∧
        s.table.mapping.byName row.name = some row.tag ∧
        s.table.mapping.byId row.id = some row.tag) ∧
      ∀ rows : List ObjectRow, rows.Perm s.objectTypes →
        (ofRows rows).mapping = s.table.mapping) := by
  refine ⟨size_eq_length_iff, fun h => ⟨map_objectType? h, ?_, ?_, ?_⟩⟩
  · intro name row hfind
    exact byId_of_mem h ((objectType?_eq_some_iff h).mp hfind).1
  · intro row hrow
    exact ⟨(objectType?_eq_some_iff h).mpr ⟨hrow, rfl⟩, byName_of_mem h hrow, byId_of_mem h hrow⟩
  · exact fun rows hperm => mapping_of_perm hperm h

namespace Sample

/-- Rows with neither a number nor a name in common, but with one tag in common. -/
def apart : Settings where
  objectTypes := [⟨1, "crate", ⟨"A"⟩⟩, ⟨2, "barrel", ⟨"B"⟩⟩, ⟨3, "chest", ⟨"A"⟩⟩]

end Sample

open Settings.Sample in
theorem lookups_of_apart_crate :
    apart.table.size = 3 ∧ apart.objectType? "chest" = some ⟨3, "chest", ⟨"A"⟩⟩ ∧
    (ofRows apart.objectTypes.reverse).mapping.byName "chest" = some ⟨"A"⟩ ∧
    (ofRows apart.objectTypes.reverse).mapping.byId 2 = some ⟨"B"⟩ := by
  have hapart : apart.objectTypes.Pairwise ObjectRow.Apart := by decide
  obtain ⟨hsize, hlookups⟩ := lookups_of_apart apart
  obtain ⟨-, -, hrows, hperm⟩ := hlookups hapart
  obtain ⟨hfind, hname, -⟩ := hrows ⟨3, "chest", ⟨"A"⟩⟩ (by decide)
  obtain ⟨-, -, hid⟩ := hrows ⟨2, "barrel", ⟨"B"⟩⟩ (by decide)
  rw [hperm _ (List.reverse_perm _)]
  exact ⟨hsize.mpr hapart, hfind, hname, hid⟩

end Settings

end WireCapture
