import WireCapture.Proofs.EntityShape

/-!
# The layout of entities in a capture

How an entity tree is written: a record is its version, the header and the fields
of its kind, each under its version gate; every nested entity follows its
introducer. Below version 5 a position is written as integers, and which integers
and which introducers stand in the capture the entity does not say, so a written
tree carries them beside its records. Decoding inverts the layout.
-/
namespace WireCapture

/-- A field that is there only under a condition. -/
def gate (there : Bool) (bs : Bytes) : Bytes := if there then bs else []

theorem Reader.reads_gate {α : Type} {r : Reader α} {there : Bool} {o : Option α}
    {write : α → Bytes} (ho : o.isSome = there) (h : ∀ a ∈ o, Reads r (write a) a) :
    Reads (gated there r) (gate there (o.elim [] write)) o := by
  subst ho
  cases o with
  | none => exact .pure none
  | some a => exact (h a rfl).map

/-- A field outside its gate has its default value. -/
theorem Reader.getD_gated {α : Type} {there : Bool} {a default : α}
    (h : there = false → a = default) : (if there then some a else none).getD default = a := by
  cases there with
  | true => rfl
  | false => exact (h rfl).symm

namespace ScriptBinding

def bytes (s : ScriptBinding) : Bytes :=
  Word.bytes 2 s.version.toNat ++ Text.counted 4 s.function ++ Word.bytes 4 s.slot.toNat

@[mk_iff]
structure Writable (s : ScriptBinding) : Prop where
  version : s.version ≤ 1
  function : Text.Fits 4 s.function

instance (s : ScriptBinding) : Decidable s.Writable := decidable_of_iff _ s.writable_iff.symm

theorem reads_bytes {s : ScriptBinding} (h : s.Writable) : Reads reader s.bytes s := by
  rw [bytes, List.append_assoc]
  exact (Reader.reads_version h.version).bind
    ((Text.reads_counted h.function).bind ((Reader.reads_u32 s.slot).bind_pure rfl))

end ScriptBinding

namespace ObjectHeader

/-- The integers that stand for the two coordinates below version 5. -/
structure Grid where
  x : Int32
  y : Int32
  deriving DecidableEq, Repr

def coordinateBytes (version : UInt16) (n : Int32) (x : Single) : Bytes :=
  if version < 5 then Word.bytes 4 n.toUInt32.toNat else Word.bytes 4 x.bits.toNat

/-- The layout below version 40. -/
def legacyBytes (version : UInt16) (grid : Grid) (h : ObjectHeader) : Bytes :=
  Word.bytes 4 h.extent.toNat ++ Word.bytes 4 h.flags.toNat ++
    coordinateBytes version grid.x h.x ++ coordinateBytes version grid.y h.y ++
    gate (10 ≤ version) (Text.counted 1 h.name) ++ gate (20 ≤ version) [h.team] ++
    gate (30 ≤ version) [h.subCount]

/-- The fields after a set presence flag. -/
def presentBytes (h : ObjectHeader) : Bytes :=
  Word.bytes 4 h.flags.toNat ++ Text.counted 1 h.name ++ [h.team] ++ [h.subCount] ++
    Word.bytes 2 h.ownedIds.length ++ h.ownedIds.flatMap (fun id => Word.bytes 4 id.toNat) ++
    Word.bytes 4 h.anim.toNat ++ gate (63 ≤ h.version) (h.script.elim [] ScriptBinding.bytes) ++
    gate (64 ≤ h.version) (h.deadFrame.elim [] fun n => Word.bytes 4 n.toUInt32.toNat)

/-- The layout with a version of its own. -/
def currentBytes (h : ObjectHeader) : Bytes :=
  Word.bytes 2 h.version.toNat ++ Word.bytes 4 h.extent.toNat ++ Word.bytes 4 h.id.toNat ++
    Word.bytes 4 h.x.bits.toNat ++ Word.bytes 4 h.y.bits.toNat ++
    if h.present then 1 :: h.presentBytes else [0]

def bytes (version : UInt16) (grid : Grid) (h : ObjectHeader) : Bytes :=
  if version < 40 then h.legacyBytes version grid else h.currentBytes

@[mk_iff]
structure Writable (version : UInt16) (grid : Grid) (h : ObjectHeader) : Prop where
  shaped : h.Shaped version
  x : version < 5 → h.x = Single.ofInt grid.x.toInt
  y : version < 5 → h.y = Single.ofInt grid.y.toInt
  name : Text.Fits 1 h.name
  ownedIds : h.ownedIds.length < 256 ^ 2
  script : ∀ s ∈ h.script, s.Writable

instance (version : UInt16) (grid : Grid) (h : ObjectHeader) :
    Decidable (h.Writable version grid) :=
  decidable_of_iff _ (writable_iff version grid h).symm

theorem Legacy.eq {version : UInt16} {h : ObjectHeader} (hs : h.Legacy version) :
    h = { version, extent := h.extent, flags := h.flags, x := h.x, y := h.y, present := true,
          name := h.name, team := h.team, subCount := h.subCount } := by
  obtain ⟨rfl, hpresent, hid, hanim, hids, hscript, hdead, _, _, _⟩ := hs
  cases h
  simp only at hpresent hid hanim hids hscript hdead
  rw [hpresent, hid, hanim, hids, hscript, hdead]

theorem reads_coordinate {version : UInt16} {n : Int32} {x : Single}
    (h : version < 5 → x = Single.ofInt n.toInt) :
    Reads (legacyCoordinate version) (coordinateBytes version n x) x := by
  unfold legacyCoordinate coordinateBytes
  split
  · rename_i hv
    rw [h hv]
    exact (Reader.reads_i32 n).map
  · exact Reader.reads_single x

theorem reads_legacyBytes {version : UInt16} {grid : Grid} {h : ObjectHeader}
    (hv : version < 40) (hw : h.Writable version grid) :
    Reads (legacyReader version) (h.legacyBytes version grid) h := by
  have hs := hw.shaped.legacy hv
  simp only [legacyBytes, List.append_assoc]
  refine (Reader.reads_u32 h.extent).bind ?_
  refine (Reader.reads_u32 h.flags).bind ?_
  refine (reads_coordinate hw.x).bind ?_
  refine (reads_coordinate hw.y).bind ?_
  refine (Reader.reads_gated fun _ => Text.reads_counted hw.name).bind ?_
  refine (Reader.reads_gated fun _ => Reader.reads_u8 h.team).bind ?_
  refine (Reader.reads_gated fun _ => Reader.reads_u8 h.subCount).bind_pure ?_
  have hname : (if decide (10 ≤ version) then some h.name else none).getD "" = h.name :=
    Reader.getD_gated fun hn => hs.name (UInt16.not_le.mp (of_decide_eq_false hn))
  have hteam : (if decide (20 ≤ version) then some h.team else none).getD 0 = h.team :=
    Reader.getD_gated fun hn => hs.team (UInt16.not_le.mp (of_decide_eq_false hn))
  have hsub : (if decide (30 ≤ version) then some h.subCount else none).getD 0 = h.subCount :=
    Reader.getD_gated fun hn => hs.subCount (UInt16.not_le.mp (of_decide_eq_false hn))
  rw [hname, hteam, hsub]
  exact hs.eq.symm

theorem split_flatMap (ids : List UInt32) :
    (Word.split 4 ids.length (ids.flatMap fun id => Word.bytes 4 id.toNat)).map UInt32.ofNat =
      ids := by
  induction ids with
  | nil => rfl
  | cons id ids ih =>
      have hl : (Word.bytes 4 id.toNat).length = 4 := Word.length_bytes 4 _
      have hv : id.toNat % 256 ^ 4 = id.toNat := Nat.mod_eq_of_lt id.toNat_lt
      rw [List.length_cons, List.flatMap_cons, Word.split_succ, List.map_cons,
        List.take_left' hl, List.drop_left' hl, ih, Word.value_bytes, hv, UInt32.ofNat_toNat]

theorem length_flatMap_bytes (width : Nat) (ids : List UInt32) :
    (ids.flatMap fun id => Word.bytes width id.toNat).length = ids.length * width := by
  induction ids with
  | nil => simp
  | cons id ids ih =>
      rw [List.flatMap_cons, List.length_append, ih, Word.length_bytes, List.length_cons,
        Nat.succ_mul, Nat.add_comm]

theorem reads_ownedIds {ids : List UInt32} (h : ids.length < 256 ^ 2) :
    Reads ownedIdsReader
      (Word.bytes 2 ids.length ++ ids.flatMap fun id => Word.bytes 4 id.toNat) ids := by
  have hn : (UInt16.ofNat ids.length).toNat = ids.length :=
    UInt16.toNat_ofNat_of_lt' h
  have hc := Reader.reads_u16 (UInt16.ofNat ids.length)
  rw [hn] at hc
  refine hc.bind ?_
  rw [hn]
  exact (Reader.reads_take (length_flatMap_bytes 4 ids)).bind_pure (split_flatMap ids)

theorem reads_presentBytes {version : UInt16} {grid : Grid} {h : ObjectHeader}
    (hs : h.Current) (hw : h.Writable version grid) (hp : h.present = true) :
    Reads (presentReader { version := h.version, extent := h.extent, id := h.id,
                           x := h.x, y := h.y, present := true }) h.presentBytes h := by
  have hscript : h.script.isSome = decide (63 ≤ h.version) :=
    Bool.eq_iff_iff.mpr ((hs.script hp).trans decide_eq_true_iff.symm)
  have hdead : h.deadFrame.isSome = decide (64 ≤ h.version) :=
    Bool.eq_iff_iff.mpr ((hs.deadFrame hp).trans decide_eq_true_iff.symm)
  simp only [presentBytes, List.append_assoc]
  refine (Reader.reads_u32 h.flags).bind ?_
  refine (Text.reads_counted hw.name).bind ?_
  refine (Reader.reads_u8 h.team).bind ?_
  refine (Reader.reads_u8 h.subCount).bind ?_
  rw [← List.append_assoc]
  refine (reads_ownedIds hw.ownedIds).bind ?_
  refine (Reader.reads_u32 h.anim).bind ?_
  refine (Reader.reads_gate hscript fun s hs => ScriptBinding.reads_bytes (hw.script s hs)).bind ?_
  refine (Reader.reads_gate hdead fun n _ => Reader.reads_i32 n).bind_pure ?_
  cases h
  cases hp
  rfl

theorem Absent.eq {h : ObjectHeader} (ha : h.Absent) (hp : h.present = false) :
    h = { version := h.version, extent := h.extent, id := h.id, x := h.x, y := h.y,
          present := false } := by
  obtain ⟨hflags, hname, hteam, hsub, hids, hanim, hscript, hdead⟩ := ha
  cases h
  simp only at hp hflags hname hteam hsub hids hanim hscript hdead
  rw [hp, hflags, hname, hteam, hsub, hids, hanim, hscript, hdead]

theorem reads_currentBytes {version : UInt16} {grid : Grid} {h : ObjectHeader}
    (hv : ¬ version < 40) (hw : h.Writable version grid) :
    Reads (reader version) h.currentBytes h := by
  have hs := hw.shaped.current (UInt16.not_lt.mp hv)
  unfold reader
  rw [if_neg hv]
  simp only [currentBytes, List.append_assoc]
  refine (Reader.reads_version hs.high).bind ?_
  rw [if_neg (UInt16.not_lt.mpr hs.low)]
  refine (Reader.reads_u32 h.extent).bind ?_
  refine (Reader.reads_u32 h.id).bind ?_
  refine (Reader.reads_single h.x).bind ?_
  refine (Reader.reads_single h.y).bind ?_
  cases hp : h.present with
  | true => exact (Reader.reads_u8 1).bind (reads_presentBytes hs hw hp)
  | false =>
      have hr : Reads (pure { version := h.version, extent := h.extent, id := h.id,
                              x := h.x, y := h.y, present := false } : Reader ObjectHeader)
          [] h := by
        rw [← (hs.absent hp).eq hp]
        exact .pure h
      exact (Reader.reads_u8 0).bind hr

theorem reads_bytes {version : UInt16} {grid : Grid} {h : ObjectHeader}
    (hw : h.Writable version grid) : Reads (reader version) (h.bytes version grid) h := by
  unfold bytes
  split
  · rename_i hv
    unfold reader
    rw [if_pos hv]
    exact reads_legacyBytes hv hw
  · rename_i hv
    exact reads_currentBytes hv hw

end ObjectHeader

namespace Gear

/-- The health is written again where it is `repeated`. -/
def bytes (val13At val14From : UInt16) (repeated : Bool) (version : UInt16) (g : Gear) :
    Bytes :=
  let health := g.health.elim [] fun n => Word.bytes 4 n.toNat
  gate (11 ≤ version) (g.modifiers.flatMap (Text.counted 1)) ++
    gate (42 ≤ version) health ++ gate repeated health ++
    gate (version == val13At) (g.val13.elim [] fun n => [n]) ++
    gate (val14From ≤ version) (g.val14.elim [] fun n => Word.bytes 4 n.toNat)

theorem reads_modifiers {names : List String} (hl : names.length = 4)
    (h : ∀ s ∈ names, Text.Fits 1 s) :
    Reads modifiersReader (names.flatMap (Text.counted 1)) names := by
  match names, hl with
  | [a, b, c, d], _ =>
      have ha := Text.reads_counted (h a (by simp))
      have hb := Text.reads_counted (h b (by simp))
      have hc := Text.reads_counted (h c (by simp))
      have hd := Text.reads_counted (h d (by simp))
      simp only [List.flatMap_cons, List.flatMap_nil, List.append_nil]
      exact ha.bind (hb.bind (hc.bind (hd.bind_pure rfl)))

theorem reads_again {health : Option UInt32} {repeated : Bool}
    (h : repeated = true → health.isSome = true) :
    Reads (Reader.gated repeated Reader.u32)
      (gate repeated (health.elim [] fun n => Word.bytes 4 n.toNat))
      (if repeated then health else none) := by
  cases repeated with
  | true => exact Reader.reads_gate (h rfl) fun n _ => Reader.reads_u32 n
  | false => exact .pure none

theorem reads_bytes {l : Layout} {version : UInt16} {g : Gear}
    (hl : ∀ v, l.repeatsHealth v = true → 42 ≤ v)
    (hs : g.Shaped l.val13At l.val14From version) (hm : ∀ s ∈ g.modifiers, Text.Fits 1 s) :
    Reads (reader l version)
      (g.bytes l.val13At l.val14From (l.repeatsHealth version) version) g := by
  have hhealth : g.health.isSome = decide (42 ≤ version) :=
    Bool.eq_iff_iff.mpr (hs.health.trans decide_eq_true_iff.symm)
  have h13 : g.val13.isSome = (version == l.val13At) :=
    Bool.eq_iff_iff.mpr (hs.val13.trans beq_iff_eq.symm)
  have h14 : g.val14.isSome = decide (l.val14From ≤ version) :=
    Bool.eq_iff_iff.mpr (hs.val14.trans decide_eq_true_iff.symm)
  have hfour : decide (11 ≤ version) = true → g.modifiers.length = 4 := fun hv => by
    rw [hs.modifiers, if_pos (of_decide_eq_true hv)]
  have hnone : decide (11 ≤ version) = false → g.modifiers = [] := fun hv => by
    apply List.eq_nil_of_length_eq_zero
    rw [hs.modifiers, if_neg (of_decide_eq_false hv)]
  simp only [bytes, List.append_assoc]
  refine (Reader.reads_gated fun hv => reads_modifiers (hfour hv) hm).bind ?_
  refine (Reader.reads_gate hhealth fun n _ => Reader.reads_u32 n).bind ?_
  refine (reads_again fun hr => hs.health.mpr (hl version hr)).bind ?_
  refine (Reader.reads_gate h13 fun n _ => Reader.reads_u8 n).bind ?_
  refine (Reader.reads_gate h14 fun n _ => Reader.reads_u32 n).bind_pure ?_
  have hagain : (if l.repeatsHealth version then g.health else none).or g.health = g.health := by
    cases l.repeatsHealth version with
    | true => exact Option.or_self
    | false => exact Option.none_or
  rw [Reader.getD_gated hnone, hagain]

end Gear

namespace Body

def bytes (version : UInt16) : Body → Bytes
  | .default => []
  | .armor g => g.bytes 61 62 false version
  | .weapon g => g.bytes 63 64 (61 ≤ version) version

theorem reads_bytes {version : UInt16} {b : Body} (hs : b.Shaped version)
    (hm : ∀ g ∈ b.gear?, ∀ s ∈ g.modifiers, Text.Fits 1 s) :
    Reads (reader version b.kind) (b.bytes version) b := by
  cases b with
  | default => exact .pure Body.default
  | armor g => exact (Gear.reads_bytes Gear.armor_repeatsHealth hs.2 (hm g rfl)).map
  | weapon g => exact (Gear.reads_bytes Gear.weapon_repeatsHealth hs.2 (hm g rfl)).map

theorem Shaped.version_le {version : UInt16} {b : Body} (hs : b.Shaped version) :
    version ≤ b.kind.versioned.ceiling := by
  cases b with
  | default => exact hs
  | armor _ => exact hs.1
  | weapon _ => exact hs.1

end Body

namespace Record

def bytes (grid : ObjectHeader.Grid) (r : Record) : Bytes :=
  Word.bytes 2 r.version.toNat ++ r.header.bytes r.version grid ++ r.body.bytes r.version

@[mk_iff]
structure Writable (grid : ObjectHeader.Grid) (r : Record) : Prop where
  header : r.header.Writable r.version grid
  body : r.body.Shaped r.version
  modifiers : ∀ g ∈ r.body.gear?, ∀ s ∈ g.modifiers, Text.Fits 1 s

instance (grid : ObjectHeader.Grid) (r : Record) : Decidable (r.Writable grid) :=
  decidable_of_iff _ (writable_iff grid r).symm

theorem reads_bytes {grid : ObjectHeader.Grid} {r : Record} (h : r.Writable grid) :
    Reads (reader r.body.kind) (r.bytes grid) r := by
  rw [bytes, List.append_assoc]
  refine (Reader.reads_version h.body.version_le).bind ?_
  refine (ObjectHeader.reads_bytes h.header).bind ?_
  exact (Body.reads_bytes h.body h.modifiers).bind_pure rfl

end Record

end WireCapture
