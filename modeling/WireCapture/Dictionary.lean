/-!
# Dictionaries

Values under keys, every key at most once. `find?` says what a dictionary holds,
and behind each operation stands what it does to `find?`.
-/
namespace WireCapture

/-- Where keys do not repeat, the first item with a key is the only one. -/
theorem find?_key_eq_some_iff {κ α : Type} [DecidableEq κ] {key : α → κ} {as : List α}
    (h : (as.map key).Nodup) {k : κ} {a : α} :
    as.find? (fun b => key b = k) = some a ↔ a ∈ as ∧ key a = k := by
  induction as with
  | nil => simp
  | cons b as ih =>
      rw [List.map_cons, List.nodup_cons] at h
      rw [List.mem_cons]
      by_cases hb : key b = k
      · have hother : a ∈ as → key a ≠ k :=
          fun hmem hkey => h.1 (hb.trans hkey.symm ▸ List.mem_map.mpr ⟨a, hmem, rfl⟩)
        rw [List.find?_cons_of_pos (by simpa using hb), Option.some.injEq]
        constructor
        · rintro rfl
          exact ⟨.inl rfl, hb⟩
        · rintro ⟨rfl | hmem, hkey⟩
          · rfl
          · exact absurd hkey (hother hmem)
      · have hne : a = b → key a ≠ k := by
          rintro rfl
          exact hb
        rw [List.find?_cons_of_neg (by simpa using hb), ih h.2]
        constructor
        · rintro ⟨hmem, hkey⟩
          exact ⟨.inr hmem, hkey⟩
        · rintro ⟨heq | hmem, hkey⟩
          · exact absurd hkey (hne heq)
          · exact ⟨hmem, hkey⟩

structure Dictionary (κ α : Type) where
  entries : List (κ × α)
  distinct : (entries.map Prod.fst).Nodup

namespace Dictionary

variable {κ α : Type} [DecidableEq κ]

def empty : Dictionary κ α := ⟨[], List.nodup_nil⟩

def size (d : Dictionary κ α) : Nat := d.entries.length

def isEmpty (d : Dictionary κ α) : Bool := d.entries.isEmpty

def find? (d : Dictionary κ α) (k : κ) : Option α := d.entries.lookup k

def erase (d : Dictionary κ α) (k : κ) : Dictionary κ α where
  entries := d.entries.filter fun e => e.1 ≠ k
  distinct := d.distinct.sublist (List.filter_sublist.map _)

/-- A key that is there already gets the new value. -/
def insert (d : Dictionary κ α) (k : κ) (a : α) : Dictionary κ α where
  entries := (k, a) :: (d.erase k).entries
  distinct := by
    have hk : k ∉ (d.erase k).entries.map Prod.fst := by simp [erase]
    exact List.nodup_cons.mpr ⟨hk, (d.erase k).distinct⟩

theorem lookup_cons (k j : κ) (a : α) (entries : List (κ × α)) :
    ((k, a) :: entries).lookup j = if j = k then some a else entries.lookup j := by
  by_cases h : j = k
  · simp [h]
  · rw [List.lookup_cons, beq_eq_false_iff_ne.mpr h, if_neg h]

theorem lookup_filter_ne (entries : List (κ × α)) (k j : κ) :
    (entries.filter fun e => e.1 ≠ k).lookup j = if j = k then none else entries.lookup j := by
  induction entries with
  | nil => simp
  | cons e entries ih =>
      obtain ⟨i, a⟩ := e
      by_cases hi : i = k
      · rw [List.filter_cons_of_neg (by simp [hi]), ih, lookup_cons]
        by_cases hj : j = k <;> simp [hj, hi]
      · rw [List.filter_cons_of_pos (by simp [hi]), lookup_cons, lookup_cons, ih]
        by_cases hj : j = i <;> simp [hj, hi]

theorem find?_empty (k : κ) : (empty : Dictionary κ α).find? k = none := rfl

theorem find?_erase (d : Dictionary κ α) (k j : κ) :
    (d.erase k).find? j = if j = k then none else d.find? j := lookup_filter_ne d.entries k j

theorem find?_insert (d : Dictionary κ α) (k j : κ) (a : α) :
    (d.insert k a).find? j = if j = k then some a else d.find? j := by
  have herase := d.find?_erase k j
  unfold find? at herase ⊢
  rw [insert, lookup_cons, herase]
  by_cases h : j = k <;> simp [h]

theorem find?_erase_eq_some_iff {d : Dictionary κ α} {k j : κ} {a : α} :
    (d.erase k).find? j = some a ↔ j ≠ k ∧ d.find? j = some a := by
  rw [find?_erase]
  by_cases h : j = k <;> simp [h]

theorem find?_insert_eq_some_iff {d : Dictionary κ α} {k j : κ} {a b : α} :
    (d.insert k a).find? j = some b ↔ j = k ∧ a = b ∨ j ≠ k ∧ d.find? j = some b := by
  rw [find?_insert]
  by_cases h : j = k <;> simp [h]

theorem find?_eq_some_iff {d : Dictionary κ α} {k : κ} {a : α} :
    d.find? k = some a ↔ (k, a) ∈ d.entries := by
  obtain ⟨entries, distinct⟩ := d
  unfold find?
  induction entries with
  | nil => simp
  | cons e entries ih =>
      obtain ⟨i, b⟩ := e
      rw [List.map_cons, List.nodup_cons] at distinct
      have hrest := ih distinct.2
      rw [lookup_cons, List.mem_cons]
      by_cases h : k = i
      · subst h
        have hmem : (k, a) ∉ entries := fun hm => distinct.1 (List.mem_map.mpr ⟨_, hm, rfl⟩)
        simp [hmem, eq_comm]
      · simpa [h] using hrest

end Dictionary

end WireCapture
