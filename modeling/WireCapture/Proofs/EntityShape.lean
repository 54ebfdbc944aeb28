import Mathlib.Tactic.MkIffOfInductiveProp
import WireCapture.Proofs.PartialResults

/-!
# The shape of decoded entities

Which fields an entity has follows from its version, the version of its header and
the presence flag. `Shaped` says so for headers, gear, records and entities; all
entities of a decoded tree have that shape.
-/
namespace WireCapture

/-- A header of the layout below version 40. -/
@[mk_iff]
structure ObjectHeader.Legacy (v : UInt16) (h : ObjectHeader) : Prop where
  version : h.version = v
  present : h.present = true
  id : h.id = 0
  anim : h.anim = 0
  ownedIds : h.ownedIds = []
  script : h.script = none
  deadFrame : h.deadFrame = none
  name : v < 10 → h.name = ""
  team : v < 20 → h.team = 0
  subCount : v < 30 → h.subCount = 0

instance (v : UInt16) (h : ObjectHeader) : Decidable (h.Legacy v) :=
  decidable_of_iff _ (ObjectHeader.legacy_iff v h).symm

/-- A header that ends at its presence flag. -/
@[mk_iff]
structure ObjectHeader.Absent (h : ObjectHeader) : Prop where
  flags : h.flags = 0
  name : h.name = ""
  team : h.team = 0
  subCount : h.subCount = 0
  ownedIds : h.ownedIds = []
  anim : h.anim = 0
  script : h.script = none
  deadFrame : h.deadFrame = none

instance (h : ObjectHeader) : Decidable h.Absent := decidable_of_iff _ h.absent_iff.symm

/-- A header of the layout with a version of its own. -/
@[mk_iff]
structure ObjectHeader.Current (h : ObjectHeader) : Prop where
  low : 61 ≤ h.version
  high : h.version ≤ 64
  absent : h.present = false → h.Absent
  script : h.present = true → (h.script.isSome = true ↔ 63 ≤ h.version)
  deadFrame : h.present = true → (h.deadFrame.isSome = true ↔ 64 ≤ h.version)

instance (h : ObjectHeader) : Decidable h.Current := decidable_of_iff _ h.current_iff.symm

/-- The header of a record of the given version. -/
@[mk_iff]
structure ObjectHeader.Shaped (version : UInt16) (h : ObjectHeader) : Prop where
  legacy : version < 40 → h.Legacy version
  current : 40 ≤ version → h.Current

instance (version : UInt16) (h : ObjectHeader) : Decidable (h.Shaped version) :=
  decidable_of_iff _ (ObjectHeader.shaped_iff version h).symm

/-- The trailing fields of a record of the given version. -/
@[mk_iff]
structure Gear.Shaped (val13At val14From version : UInt16) (g : Gear) : Prop where
  modifiers : g.modifiers.length = if 11 ≤ version then 4 else 0
  health : g.health.isSome = true ↔ 42 ≤ version
  val13 : g.val13.isSome = true ↔ version = val13At
  val14 : g.val14.isSome = true ↔ val14From ≤ version

instance (val13At val14From version : UInt16) (g : Gear) :
    Decidable (g.Shaped val13At val14From version) :=
  decidable_of_iff _ (Gear.shaped_iff val13At val14From version g).symm

/-- The fields after the header, and the highest version of each kind. -/
def Body.Shaped (version : UInt16) : Body → Prop
  | .default => version ≤ 60
  | .armor g => version ≤ 62 ∧ g.Shaped 61 62 version
  | .weapon g => version ≤ 64 ∧ g.Shaped 63 64 version

instance (version : UInt16) (b : Body) : Decidable (b.Shaped version) :=
  match b with
  | .default => inferInstanceAs (Decidable (version ≤ 60))
  | .armor g => inferInstanceAs (Decidable (version ≤ 62 ∧ g.Shaped 61 62 version))
  | .weapon g => inferInstanceAs (Decidable (version ≤ 64 ∧ g.Shaped 63 64 version))

structure Record.Shaped (r : Record) : Prop where
  header : r.header.Shaped r.version
  body : r.body.Shaped r.version

/-- The record has its shape and the header counts the children. -/
structure Entity.Shaped (e : Entity) : Prop where
  own : e.own.Shaped
  sub : e.sub.length = e.own.header.subCount.toNat
  absent : e.own.header.present = false → e.sub = []

namespace Reader

variable {α : Type} {there : Bool} {r : Reader α} {c c' : Cursor} {o : Option α}

theorem isSome_of_gated (h : gated there r c = .ok o c') : o.isSome = there := by
  cases there with
  | true =>
      obtain ⟨a, _, rfl⟩ := map_eq_ok.mp h
      rfl
  | false =>
      cases h
      rfl

theorem eq_none_of_gated (h : gated there r c = .ok o c') (ht : there = false) : o = none :=
  Option.isSome_eq_false_iff.mp (isSome_of_gated h ▸ ht) |> Option.isNone_iff_eq_none.mp

theorem getD_of_gated {default : α} (h : gated there r c = .ok o c') (ht : there = false) :
    o.getD default = default := by
  rw [eq_none_of_gated h ht, Option.getD_none]

theorem version_le {what : Versioned} {v : UInt16} (h : version what c = .ok v c') :
    v ≤ what.ceiling := by
  obtain ⟨w, d, _, h⟩ := bind_eq_ok.mp h
  split at h
  · cases h
  · rename_i hn
    cases h
    exact UInt16.not_lt.mp hn

end Reader

namespace ObjectHeader

variable {c c' : Cursor} {h : ObjectHeader}

theorem legacy_of_reader {version : UInt16} (hr : legacyReader version c = .ok h c') :
    h.Legacy version := by
  obtain ⟨extent, _, _, hr⟩ := bind_eq_ok.mp hr
  obtain ⟨flags, _, _, hr⟩ := bind_eq_ok.mp hr
  obtain ⟨x, _, _, hr⟩ := bind_eq_ok.mp hr
  obtain ⟨y, _, _, hr⟩ := bind_eq_ok.mp hr
  obtain ⟨name, _, hname, hr⟩ := bind_eq_ok.mp hr
  obtain ⟨team, _, hteam, hr⟩ := bind_eq_ok.mp hr
  obtain ⟨subCount, _, hsub, hr⟩ := bind_eq_ok.mp hr
  cases hr
  refine ⟨rfl, rfl, rfl, rfl, rfl, rfl, rfl, ?_, ?_, ?_⟩
  · intro hv
    exact Reader.getD_of_gated hname (decide_eq_false (UInt16.not_le.mpr hv))
  · intro hv
    exact Reader.getD_of_gated hteam (decide_eq_false (UInt16.not_le.mpr hv))
  · intro hv
    exact Reader.getD_of_gated hsub (decide_eq_false (UInt16.not_le.mpr hv))

theorem fields_of_presentReader {head : ObjectHeader} (hr : presentReader head c = .ok h c') :
    h.version = head.version ∧ h.present = head.present ∧
      (h.script.isSome = true ↔ 63 ≤ head.version) ∧
      (h.deadFrame.isSome = true ↔ 64 ≤ head.version) := by
  obtain ⟨flags, _, _, hr⟩ := bind_eq_ok.mp hr
  obtain ⟨name, _, _, hr⟩ := bind_eq_ok.mp hr
  obtain ⟨team, _, _, hr⟩ := bind_eq_ok.mp hr
  obtain ⟨subCount, _, _, hr⟩ := bind_eq_ok.mp hr
  obtain ⟨ownedIds, _, _, hr⟩ := bind_eq_ok.mp hr
  obtain ⟨anim, _, _, hr⟩ := bind_eq_ok.mp hr
  obtain ⟨script, _, hscript, hr⟩ := bind_eq_ok.mp hr
  obtain ⟨deadFrame, _, hdead, hr⟩ := bind_eq_ok.mp hr
  cases hr
  refine ⟨rfl, rfl, ?_, ?_⟩
  · change script.isSome = true ↔ _
    rw [Reader.isSome_of_gated hscript, decide_eq_true_eq]
  · change deadFrame.isSome = true ↔ _
    rw [Reader.isSome_of_gated hdead, decide_eq_true_eq]

theorem current_of_reader {version : UInt16} (low : 61 ≤ version) (high : version ≤ 64)
    (hr : currentReader version c = .ok h c') : h.Current := by
  obtain ⟨extent, _, _, hr⟩ := bind_eq_ok.mp hr
  obtain ⟨id, _, _, hr⟩ := bind_eq_ok.mp hr
  obtain ⟨x, _, _, hr⟩ := bind_eq_ok.mp hr
  obtain ⟨y, _, _, hr⟩ := bind_eq_ok.mp hr
  obtain ⟨flag, _, _, hr⟩ := bind_eq_ok.mp hr
  by_cases hf : flag = 0
  · rw [if_pos hf] at hr
    cases hr
    have hp : (flag != 0) = false := by rw [hf]; rfl
    exact ⟨low, high, fun _ => ⟨rfl, rfl, rfl, rfl, rfl, rfl, rfl, rfl⟩,
      fun ht => absurd (hp.symm.trans ht) Bool.false_ne_true,
      fun ht => absurd (hp.symm.trans ht) Bool.false_ne_true⟩
  · rw [if_neg hf] at hr
    obtain ⟨hv, hp, hscript, hdead⟩ := fields_of_presentReader hr
    have hp' : h.present = true := hp.trans (bne_iff_ne.mpr hf)
    change h.version = version at hv
    exact ⟨hv ▸ low, hv ▸ high, fun hn => absurd (hn.symm.trans hp') Bool.false_ne_true,
      fun _ => hv ▸ hscript, fun _ => hv ▸ hdead⟩

theorem shaped_of_reader {version : UInt16} (hr : reader version c = .ok h c') :
    h.Shaped version := by
  unfold reader at hr
  split at hr
  · rename_i hv
    exact ⟨fun _ => legacy_of_reader hr, fun hn => absurd hv (UInt16.not_lt.mpr hn)⟩
  · rename_i hv
    refine ⟨fun hn => absurd hn hv, fun _ => ?_⟩
    obtain ⟨subVersion, _, hs, hr⟩ := bind_eq_ok.mp hr
    split at hr
    · cases hr
    · rename_i hlow
      exact current_of_reader (UInt16.not_lt.mp hlow) (Reader.version_le hs) hr

end ObjectHeader

namespace Gear

variable {version : UInt16} {c c' : Cursor} {g : Gear}

theorem length_of_modifiersReader {names : List String}
    (hr : modifiersReader c = .ok names c') : names.length = 4 := by
  obtain ⟨a, _, _, hr⟩ := bind_eq_ok.mp hr
  obtain ⟨b, _, _, hr⟩ := bind_eq_ok.mp hr
  obtain ⟨m, _, _, hr⟩ := bind_eq_ok.mp hr
  obtain ⟨n, _, _, hr⟩ := bind_eq_ok.mp hr
  cases hr
  rfl

theorem length_getD_of_gated {there : Bool} {o : Option (List String)}
    (h : Reader.gated there modifiersReader c = .ok o c') :
    (o.getD []).length = if there then 4 else 0 := by
  cases there with
  | true =>
      obtain ⟨names, hn, rfl⟩ := map_eq_ok.mp h
      exact length_of_modifiersReader hn
  | false =>
      cases h
      rfl

/-- A second health is only there where the first is. -/
theorem shaped_of_reader {l : Layout} (hl : ∀ v, l.repeatsHealth v = true → 42 ≤ v)
    (hr : reader l version c = .ok g c') : g.Shaped l.val13At l.val14From version := by
  obtain ⟨modifiers, _, hm, hr⟩ := bind_eq_ok.mp hr
  obtain ⟨health, _, hh, hr⟩ := bind_eq_ok.mp hr
  obtain ⟨again, _, ha, hr⟩ := bind_eq_ok.mp hr
  obtain ⟨val13, _, h13, hr⟩ := bind_eq_ok.mp hr
  obtain ⟨val14, _, h14, hr⟩ := bind_eq_ok.mp hr
  cases hr
  constructor
  · have h := length_getD_of_gated hm
    simp only [decide_eq_true_eq] at h
    exact h
  · change (again.or health).isSome = true ↔ _
    rw [Option.isSome_or, Bool.or_eq_true, Reader.isSome_of_gated hh,
      Reader.isSome_of_gated ha, decide_eq_true_eq]
    exact ⟨fun h => h.elim (hl version) id, .inr⟩
  · change val13.isSome = true ↔ _
    rw [Reader.isSome_of_gated h13, beq_iff_eq]
  · change val14.isSome = true ↔ _
    rw [Reader.isSome_of_gated h14, decide_eq_true_eq]

theorem armor_repeatsHealth (v : UInt16) (h : armorLayout.repeatsHealth v = true) : 42 ≤ v := by
  cases h

theorem weapon_repeatsHealth (v : UInt16) (h : weaponLayout.repeatsHealth v = true) :
    42 ≤ v := by
  have h₆₁ : 61 ≤ v := of_decide_eq_true h
  exact UInt16.le_trans (by decide) h₆₁

end Gear

theorem Body.shaped_of_reader {version : UInt16} {kind : Kind} {c c' : Cursor} {b : Body}
    (hv : version ≤ kind.versioned.ceiling) (hr : reader version kind c = .ok b c') :
    b.Shaped version := by
  cases kind with
  | default =>
      cases hr
      exact hv
  | armor =>
      obtain ⟨g, hg, rfl⟩ := map_eq_ok.mp hr
      exact ⟨hv, Gear.shaped_of_reader Gear.armor_repeatsHealth hg⟩
  | weapon =>
      obtain ⟨g, hg, rfl⟩ := map_eq_ok.mp hr
      exact ⟨hv, Gear.shaped_of_reader Gear.weapon_repeatsHealth hg⟩

theorem Record.shaped_of_reader {kind : Kind} {c c' : Cursor} {r : Record}
    (hr : Record.reader kind c = .ok r c') : r.Shaped := by
  obtain ⟨version, _, hv, hr⟩ := bind_eq_ok.mp hr
  obtain ⟨header, _, hh, hr⟩ := bind_eq_ok.mp hr
  obtain ⟨body, _, hb, hr⟩ := bind_eq_ok.mp hr
  cases hr
  exact ⟨ObjectHeader.shaped_of_reader hh, Body.shaped_of_reader (Reader.version_le hv) hb⟩

theorem Record.Shaped.subCount_of_absent {r : Record} (h : r.Shaped)
    (ha : r.header.present = false) : r.header.subCount = 0 := by
  by_cases hv : r.version < 40
  · have hp := (h.header.legacy hv).present
    rw [ha] at hp
    exact absurd hp Bool.false_ne_true
  · exact ((h.header.current (UInt16.not_lt.mp hv)).absent ha).subCount

theorem Entity.mem_preorderAll {level : Nat} {es : List Entity} {p : Nat × Entity} :
    p ∈ preorderAll level es ↔ ∃ e ∈ es, p ∈ e.preorder level := by
  induction es with
  | nil => simp [preorderAll]
  | cons e es ih => simp [preorderAll, ih]

namespace Decoder

/-- What holds of every child that is decoded holds of all of them. -/
theorem Steps.forall_mem {step : Decoder Entity} {P : Entity → Prop}
    (hstep : ∀ s t e, step s = .ok e t → P e) {s t : Session} {es : List Entity}
    (h : Steps step s es t) : ∀ e ∈ es, P e := by
  induction h with
  | nil _ => exact fun _ he => absurd he List.not_mem_nil
  | cons hs _ ih =>
      intro e he
      rcases List.mem_cons.mp he with rfl | he
      · exact hstep _ _ _ hs
      · exact ih e he

theorem shaped_of_recordOf {objects : ObjectMapping} {limit level : Nat} {tag : Tag}
    {s t : Session} {own : Record}
    (h : recordOf { objects, limit } level tag s = .ok own t) : own.Shaped := by
  obtain ⟨read, hl, hr, _⟩ := recordOf_eq_ok.mp h
  obtain ⟨kind, rfl⟩ := standard_lookup hl
  exact Record.shaped_of_reader hr

theorem shaped_of_within {objects : ObjectMapping} {limit room : Nat} {tag : Tag}
    {s t : Session} {e : Entity} (h : within { objects, limit } room tag s = .ok e t)
    (level : Nat) : ∀ p ∈ e.preorder level, p.2.Shaped := by
  induction room using Nat.strongRecOn generalizing tag s t e level with
  | ind room ih =>
      obtain ⟨own, u, es, hr, hs, hl, rfl⟩ := within_eq_ok.mp h
      have hown := shaped_of_recordOf hr
      have hes : ∀ e ∈ es, ∀ p ∈ e.preorder (level + 1), p.2.Shaped := by
        refine hs.forall_mem ?_
        intro s t e hstep
        obtain ⟨below, tag, v, rfl, _, hw⟩ := childStep_eq_ok.mp hstep
        exact ih below (Nat.lt_succ_self below) hw (level + 1)
      intro p hp
      rw [Entity.preorder, List.mem_cons, Entity.mem_preorderAll] at hp
      rcases hp with rfl | ⟨e, he, hp⟩
      · refine ⟨hown, hl, fun ha => ?_⟩
        have hz : es.length = 0 := by
          rw [hl, hown.subCount_of_absent ha]
          rfl
        exact List.eq_nil_of_length_eq_zero hz
      · exact hes e he p hp

/-- Every entity of a decoded tree has exactly the fields that its version, the
version of its header and its presence flag ask for, and as many children as its
header counts. -/
theorem decoded_shaped {objects : ObjectMapping} {limit : Nat} {tag : Tag} {data : Bytes}
    {e : Entity} (h : ((ofTag { objects, limit } tag).run data).result = .ok e) :
    ∀ p ∈ e.preorder 0, p.2.Shaped := by
  obtain ⟨t, ht⟩ := run_eq_ok h
  exact shaped_of_within ht 0

end Decoder

namespace Sample

def vest : Record :=
  { version := 61
    header := { version := 64, extent := 3, id := 4, present := true, name := "v", team := 1,
                subCount := 1, ownedIds := [7, 8], script := some ⟨1, "f", 9⟩,
                deadFrame := some (-1) }
    body := .armor ⟨["a", "", "", "b"], some 10, some 11, none⟩ }

def blade : Record :=
  { version := 64
    header := { version := 61, extent := 5, id := 6 }
    body := .weapon ⟨["", "", "", ""], some 12, none, some 13⟩ }

/-- A vest that holds a blade. -/
def vestCapture : Bytes :=
  [61, 0, 64, 0, 3, 0, 0, 0, 4, 0, 0, 0, 0, 0, 0, 0, 0, 0, 0, 0, 1, 0, 0, 0, 0, 1, 118, 1, 1,
   2, 0, 7, 0, 0, 0, 8, 0, 0, 0, 0, 0, 0, 0, 1, 0, 1, 0, 0, 0, 102, 9, 0, 0, 0,
   255, 255, 255, 255, 1, 97, 0, 0, 1, 98, 10, 0, 0, 0, 11,
   9, 0,
   64, 0, 61, 0, 5, 0, 0, 0, 6, 0, 0, 0, 0, 0, 0, 0, 0, 0, 0, 0, 0, 0, 0, 0, 0,
   12, 0, 0, 0, 12, 0, 0, 0, 13, 0, 0, 0]

end Sample

open Sample in
theorem Decoder.decoded_shaped_vestCapture :
    ((ofTag { objects, limit := 1 } TagRegistry.armorTag).run vestCapture).result =
      .ok (.node vest [.node blade []]) ∧
    ∀ p ∈ (Entity.node vest [.node blade []]).preorder 0, p.2.Shaped := by
  have hrun : ((ofTag { objects, limit := 1 } TagRegistry.armorTag).run vestCapture).result =
      .ok (.node vest [.node blade []]) := by
    decide +kernel
  exact ⟨hrun, decoded_shaped hrun⟩

end WireCapture
