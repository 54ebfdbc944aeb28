import WireCapture.Proofs.ReaderLaws

/-!
# Entities are decided by the bytes they take

Records are read and entities are decoded from parts that stream, so the bytes
that a decoding took decide its result, and every cut before their end is an
unexpected end of the data.
-/
namespace WireCapture

theorem ScriptBinding.streams_reader : Streams ScriptBinding.reader :=
  (Reader.streams_version .script).bind fun _ =>
    (Reader.streams_countedText 4).bind fun _ =>
      Reader.streams_u32.bind fun _ => .pure _

namespace ObjectHeader

theorem streams_ownedIdsReader : Streams ownedIdsReader :=
  Reader.streams_u16.bind fun count =>
    (Reader.streams_take (count.toNat * 4)).bind fun _ => .pure _

theorem streams_presentReader (head : ObjectHeader) : Streams (presentReader head) :=
  Reader.streams_u32.bind fun _ =>
    (Reader.streams_countedText 1).bind fun _ =>
      Reader.streams_u8.bind fun _ =>
        Reader.streams_u8.bind fun _ =>
          streams_ownedIdsReader.bind fun _ =>
            Reader.streams_u32.bind fun _ =>
              (Reader.streams_gated _ ScriptBinding.streams_reader).bind fun _ =>
                (Reader.streams_gated _ Reader.streams_i32).bind fun _ => .pure _

theorem streams_currentReader (version : UInt16) : Streams (currentReader version) :=
  Reader.streams_u32.bind fun _ =>
    Reader.streams_u32.bind fun _ =>
      Reader.streams_single.bind fun _ =>
        Reader.streams_single.bind fun _ =>
          Reader.streams_u8.bind fun _ => .ite (.pure _) (streams_presentReader _)

theorem streams_legacyCoordinate (version : UInt16) : Streams (legacyCoordinate version) :=
  .ite Reader.streams_i32.map Reader.streams_single

theorem streams_legacyReader (version : UInt16) : Streams (legacyReader version) :=
  Reader.streams_u32.bind fun _ =>
    Reader.streams_u32.bind fun _ =>
      (streams_legacyCoordinate version).bind fun _ =>
        (streams_legacyCoordinate version).bind fun _ =>
          (Reader.streams_gated _ (Reader.streams_countedText 1)).bind fun _ =>
            (Reader.streams_gated _ Reader.streams_u8).bind fun _ =>
              (Reader.streams_gated _ Reader.streams_u8).bind fun _ => .pure _

theorem streams_reader (version : UInt16) : Streams (reader version) :=
  .ite (streams_legacyReader version)
    ((Reader.streams_version .header).bind fun subVersion =>
      .ite (.throw rfl) (streams_currentReader subVersion))

end ObjectHeader

namespace Gear

theorem streams_modifiersReader : Streams modifiersReader :=
  (Reader.streams_countedText 1).bind fun _ =>
    (Reader.streams_countedText 1).bind fun _ =>
      (Reader.streams_countedText 1).bind fun _ =>
        (Reader.streams_countedText 1).bind fun _ => .pure _

theorem streams_reader (l : Layout) (version : UInt16) : Streams (reader l version) :=
  (Reader.streams_gated _ streams_modifiersReader).bind fun _ =>
    (Reader.streams_gated _ Reader.streams_u32).bind fun _ =>
      (Reader.streams_gated _ Reader.streams_u32).bind fun _ =>
        (Reader.streams_gated _ Reader.streams_u8).bind fun _ =>
          (Reader.streams_gated _ Reader.streams_u32).bind fun _ => .pure _

end Gear

theorem Body.streams_reader (version : UInt16) (kind : Kind) : Streams (reader version kind) := by
  cases kind with
  | default => exact .pure _
  | armor => exact (Gear.streams_reader _ version).map
  | weapon => exact (Gear.streams_reader _ version).map

theorem Record.streams_reader (kind : Kind) : Streams (Record.reader kind) :=
  (Reader.streams_version kind.versioned).bind fun version =>
    (ObjectHeader.streams_reader version).bind fun _ =>
      (Body.streams_reader version kind).bind fun _ => .pure _

theorem ObjectMapping.resolve_fault {tag : Option Tag} {objectType : String} {e : Fault}
    (h : resolve tag objectType = .error e) : e = .noObjectMapping objectType := by
  unfold resolve at h
  split at h
  · split at h
    · cases h
      rfl
    · cases h
  · cases h
    rfl

namespace TagRegistry

variable {δ : Type}

theorem lookup_fault {r : TagRegistry δ} {tag : Tag} {e : Fault}
    (h : r.lookup tag = .error e) : e = .unknownType tag := by
  unfold lookup at h
  split at h
  · cases h
  · cases h
    rfl

theorem mem_of_lookup {r : TagRegistry δ} {tag : Tag} {d : δ} (h : r.lookup tag = .ok d) :
    (tag, d) ∈ r.entries := by
  unfold lookup find? at h
  split at h
  · rename_i d' hd
    cases h
    obtain ⟨⟨t, d'⟩, hf, rfl⟩ := Option.map_eq_some_iff.mp hd
    have ht : t = tag := by simpa using List.find?_some hf
    exact ht ▸ List.mem_of_find?_eq_some hf
  · cases h

theorem contains_of_lookup {r : TagRegistry δ} {tag : Tag} {d : δ} (h : r.lookup tag = .ok d) :
    r.contains tag = true := by
  unfold lookup at h
  split at h
  · rename_i hfind
    rw [contains, hfind]
    rfl
  · cases h

/-- Every entry reads the record of one of the three kinds. -/
def OfKinds (r : TagRegistry RecordReader) : Prop :=
  ∀ e ∈ r.entries, ∃ kind, e.2 = ofKind kind

theorem standard_ofKinds : standard.OfKinds := by
  intro e he
  simp only [standard, List.mem_cons, List.not_mem_nil, or_false] at he
  rcases he with rfl | rfl | rfl
  · exact ⟨.default, rfl⟩
  · exact ⟨.armor, rfl⟩
  · exact ⟨.weapon, rfl⟩

theorem OfKinds.streams {r : TagRegistry RecordReader} (h : r.OfKinds) {tag : Tag}
    {read : RecordReader} (hl : r.lookup tag = .ok read) (level : Nat) :
    Streams (read level) := by
  obtain ⟨kind, hk⟩ := h _ (mem_of_lookup hl)
  change read = ofKind kind at hk
  rw [hk]
  exact Record.streams_reader kind

end TagRegistry

namespace Decoder

variable {α : Type}

theorem lift_settles {r : Reader α} {used : Bytes} {x : Except Fault α}
    (h : Settles r used x) :
    Settles (lift r) used (x.mapError fun e => (⟨e, none⟩ : DecodeFailure)) := by
  obtain ⟨_, h⟩ := h
  refine ⟨fun _ log => log, ?_⟩
  intro pos tail log
  have hr := h pos tail ()
  change r ⟨pos, used ++ tail⟩ = _ at hr
  change lift r ⟨⟨pos, used ++ tail⟩, log⟩ = _
  cases x with
  | ok a => rw [lift, hr]; rfl
  | error e => rw [lift, hr]; rfl

theorem lift_starves {r : Reader α} {bs : Bytes} (h : Starves r bs) : Starves (lift r) bs := by
  obtain ⟨blame, needed, remaining, skip, hb, hlt, hr, hs, _, h⟩ := h
  refine ⟨fun f => ⟨blame f, none⟩, needed, remaining, skip, hb, hlt, hr, hs,
    fun _ log => log, ?_⟩
  intro pos more log hm
  have hk := h pos more () hm
  change r ⟨pos, bs ++ more⟩ = _ at hk
  change lift r ⟨⟨pos, bs ++ more⟩, log⟩ = _
  rw [lift, hk]
  rfl

theorem streams_lift {r : Reader α} (h : Streams r) : Streams (lift r) :=
  Streams.transfer (g := fun e => ⟨e, none⟩) (fun _ => rfl) (fun _ _ => lift_settles)
    (fun _ => lift_starves) h

theorem enter_reads (tag : Tag) (level : Nat) : Reads (enter tag level) [] () :=
  ⟨fun pos log => ⟨tag, pos, level⟩ :: log, fun _ _ _ => rfl⟩

theorem streams_enter (tag : Tag) (level : Nat) : Streams (enter tag level) :=
  fun bs => .inl ⟨[], bs, .ok (), rfl, .of_nil (enter_reads tag level) (Decides.proper_of_ok ())⟩

theorem keeping_settles {d : Decoder α} {used : Bytes} {x : Except DecodeFailure α}
    (e : Entity) (h : Settles d used x) :
    Settles (keeping e d) used (x.mapError fun f => ⟨f.fault, some e⟩) := by
  obtain ⟨note, h⟩ := h
  refine ⟨note, ?_⟩
  intro pos tail log
  cases x with
  | ok a => rw [keeping, h]; rfl
  | error f => rw [keeping, h]; rfl

theorem keeping_starves {d : Decoder α} {bs : Bytes} (e : Entity) (h : Starves d bs) :
    Starves (keeping e d) bs := by
  obtain ⟨blame, needed, remaining, skip, hb, hlt, hr, hs, note, h⟩ := h
  refine ⟨fun f => ⟨(blame f).fault, some e⟩, needed, remaining, skip, hb, hlt, hr, hs,
    note, ?_⟩
  intro pos more log hm
  rw [keeping, h pos more log hm]

theorem streams_keeping {d : Decoder α} (e : Entity) (h : Streams d) :
    Streams (keeping e d) :=
  Streams.transfer (g := fun f => ⟨f.fault, some e⟩) (fun _ => rfl)
    (fun _ _ => keeping_settles e) (fun _ => keeping_starves e) h

theorem streams_introducer (objects : ObjectMapping) (version : UInt16) :
    Streams (introducer objects version) := by
  refine .ite ?_ ?_
  · refine (Reader.streams_countedText 1).bind fun name => Reader.streams_ofExcept ?_
    intro e he
    rw [ObjectMapping.resolve_fault he]
    rfl
  · refine Reader.streams_u16.bind fun id => Reader.streams_ofExcept ?_
    intro e he
    rw [ObjectMapping.resolve_fault he]
    rfl

theorem streams_children (objects : ObjectMapping) (own : Record)
    {child : Tag → Decoder Entity} (h : ∀ tag, Streams (child tag)) (n : Nat)
    (done : List Entity) : Streams (children objects own child n done) := by
  induction n generalizing done with
  | zero => exact .pure _
  | succ n ih =>
      refine (streams_keeping _ ?_).bind fun next => ih (next :: done)
      exact (streams_lift (streams_introducer objects own.version)).bind h

theorem streams_below (rules : DecodeRules) {child : Option (Tag → Decoder Entity)}
    (h : ∀ decode ∈ child, ∀ tag, Streams (decode tag)) (own : Record) :
    Streams (below rules child own) := by
  refine .ite (.pure _) ?_
  cases child with
  | none => exact .throw rfl
  | some decode => exact streams_children rules.objects own (h decode rfl) _ []

theorem streams_entity {rules : DecodeRules} (hk : rules.types.OfKinds) (level : Nat)
    {child : Option (Tag → Decoder Entity)} (h : ∀ decode ∈ child, ∀ tag, Streams (decode tag))
    (tag : Tag) : Streams (entity rules level child tag) := by
  unfold entity
  cases hl : rules.types.lookup tag with
  | error e =>
      have he : e.isUnexpectedEnd = false := by rw [TagRegistry.lookup_fault hl]; rfl
      intro bs
      have hd : Decides (throw ⟨e, none⟩ : Decoder RecordReader) [] (.error ⟨e, none⟩) := by
        refine .of_nil (.throw _) ?_
        intro _ h
        cases h
        exact he
      exact .inl ⟨[], bs, .error ⟨e, none⟩, rfl, hd.bind_error⟩
  | ok read =>
      change Streams (enter tag level >>= fun _ => lift (read level) >>= below rules child)
      refine (streams_enter tag level).bind fun _ => ?_
      exact (streams_lift (hk.streams hl level)).bind fun own => streams_below rules h own

theorem streams_within {rules : DecodeRules} (hk : rules.types.OfKinds) (room : Nat)
    (tag : Tag) : Streams (within rules room tag) := by
  induction room generalizing tag with
  | zero =>
      refine streams_entity hk _ ?_ tag
      intro _ h
      cases h
  | succ room ih =>
      refine streams_entity hk _ ?_ tag
      intro _ h
      cases h
      exact ih

theorem streams_ofTag {rules : DecodeRules} (hk : rules.types.OfKinds) (tag : Tag) :
    Streams (ofTag rules tag) := streams_within hk rules.limit tag

end Decoder

namespace Entity

mutual

def decEq : (d e : Entity) → Decidable (d = e)
  | .node r ds, .node s es =>
      match (inferInstance : Decidable (r = s)), decEqAll ds es with
      | .isTrue hr, .isTrue hs => .isTrue (by rw [hr, hs])
      | .isFalse hr, _ => .isFalse (fun h => hr (by cases h; rfl))
      | _, .isFalse hs => .isFalse (fun h => hs (by cases h; rfl))

def decEqAll : (ds es : List Entity) → Decidable (ds = es)
  | [], [] => .isTrue rfl
  | [], _ :: _ => .isFalse nofun
  | _ :: _, [] => .isFalse nofun
  | d :: ds, e :: es =>
      match decEq d e, decEqAll ds es with
      | .isTrue hd, .isTrue hs => .isTrue (by rw [hd, hs])
      | .isFalse hd, _ => .isFalse (fun h => hd (by cases h; rfl))
      | _, .isFalse hs => .isFalse (fun h => hs (by cases h; rfl))

end

instance : DecidableEq Entity := decEq

end Entity

instance decEqExcept {ε α : Type} [DecidableEq ε] [DecidableEq α] : DecidableEq (Except ε α)
  | .ok a, .ok b => decidable_of_iff (a = b) ⟨congrArg Except.ok, Except.ok.inj⟩
  | .error e, .error f => decidable_of_iff (e = f) ⟨congrArg Except.error, Except.error.inj⟩
  | .ok _, .error _ => .isFalse nofun
  | .error _, .ok _ => .isFalse nofun

deriving instance DecidableEq for DecodeFailure
deriving instance DecidableEq for DecodeOutcome

namespace Sample

def objects : ObjectMapping where
  byName s :=
    if s = "dust" then some TagRegistry.defaultTag
    else if s = "vest" then some TagRegistry.armorTag
    else none
  byId id := if id = 9 then some TagRegistry.weaponTag else none

def crate : Record :=
  { version := 30
    header := { version := 30, extent := 1, flags := 2, x := ⟨0x3F800000⟩, y := ⟨0x40000000⟩,
                present := true, team := 5, subCount := 2 }
    body := .default }

def dust : Record :=
  { version := 3
    header := { version := 3, x := ⟨0xC0000000⟩, y := ⟨0x40400000⟩, present := true }
    body := .default }

/-- A crate with two nested entities, the second of an unknown object type. -/
def brokenCapture : Bytes :=
  [30, 0, 1, 0, 0, 0, 2, 0, 0, 0, 0, 0, 128, 63, 0, 0, 0, 64, 0, 5, 2,
   4, 100, 117, 115, 116,
   3, 0, 0, 0, 0, 0, 0, 0, 0, 0, 254, 255, 255, 255, 3, 0, 0, 0,
   4, 110, 111, 110, 101, 7]

end Sample

/-- Whether decoding failed for want of bytes. -/
def DecodeOutcome.endsEarly (o : DecodeOutcome) : Bool :=
  match o.result with
  | .ok _ => false
  | .error f => f.fault.isUnexpectedEnd

namespace Decoder

theorem run_of_settles {d : Decoder Entity} {used : Bytes} {x : Except DecodeFailure Entity}
    (h : Settles d used x) :
    ∃ visits, ∀ tail, d.run (used ++ tail) = ⟨x, ⟨used.length, tail⟩, visits⟩ := by
  obtain ⟨note, h⟩ := h
  refine ⟨(note 0 []).reverse, ?_⟩
  intro tail
  have hr := h 0 tail []
  rw [Nat.zero_add] at hr
  change d ⟨.ofBytes (used ++ tail), []⟩ = _ at hr
  rw [run, hr]
  cases x <;> rfl

theorem endsEarly_of_starves {d : Decoder Entity} {bs : Bytes} (h : Starves d bs) :
    (d.run bs).endsEarly = true := by
  obtain ⟨blame, needed, remaining, skip, hb, hlt, _, _, note, h⟩ := h
  have hr := h 0 [] [] (by rw [List.length_nil]; omega)
  rw [List.append_nil] at hr
  change d ⟨.ofBytes bs, []⟩ = _ at hr
  have hf : (blame (.unexpectedEnd needed remaining)).fault = .unexpectedEnd needed remaining :=
    hb _
  rw [run, hr]
  change (blame (.unexpectedEnd needed remaining)).fault.isUnexpectedEnd = true
  rw [hf]
  rfl

/-- The bytes that decoding took determine what came of it, and no fewer bytes
would have been enough. -/
theorem determined_by_consumed {rules : DecodeRules} (hk : rules.types.OfKinds) (tag : Tag)
    (data : Bytes) (he : ((ofTag rules tag).run data).endsEarly = false) :
    let outcome := (ofTag rules tag).run data
    let consumed := outcome.cursor.pos
    (∀ other : Bytes, other.take consumed = data.take consumed →
      ((ofTag rules tag).run other).result = outcome.result ∧
        ((ofTag rules tag).run other).cursor.pos = consumed) ∧
    ∀ t < consumed, ((ofTag rules tag).run (data.take t)).endsEarly = true := by
  intro outcome consumed
  rcases streams_ofTag hk tag data with ⟨used, rest, x, rfl, hd⟩ | hs
  · obtain ⟨visits, hrun⟩ := run_of_settles hd.settles
    have ho : outcome = ⟨x, ⟨used.length, rest⟩, visits⟩ := hrun rest
    have hc : consumed = used.length := congrArg (fun o => o.cursor.pos) ho
    rw [ho, hc]
    refine ⟨?_, ?_⟩
    · intro other h
      rw [List.take_left] at h
      have hother := List.take_append_drop used.length other
      rw [h] at hother
      have hr := hrun (other.drop used.length)
      rw [hother] at hr
      rw [hr]
      exact ⟨rfl, rfl⟩
    · intro t ht
      rw [List.take_append_of_le_length (Nat.le_of_lt ht)]
      exact endsEarly_of_starves (hd.cut t ht)
  · rw [endsEarly_of_starves hs] at he
    exact absurd he Bool.noConfusion

open Sample in
theorem determined_by_consumed_brokenCapture :
    TagRegistry.standard.OfKinds ∧
    ((ofTag { objects, limit := 1 } TagRegistry.defaultTag).run brokenCapture).endsEarly =
      false ∧
    (∀ other : Bytes, other.take 49 = brokenCapture.take 49 →
      ((ofTag { objects, limit := 1 } TagRegistry.defaultTag).run other).result =
        .error ⟨.noObjectMapping "none", some (.node crate [.node dust []])⟩ ∧
      ((ofTag { objects, limit := 1 } TagRegistry.defaultTag).run other).cursor.pos = 49) ∧
    ∀ t < 49, ((ofTag { objects, limit := 1 } TagRegistry.defaultTag).run
      (brokenCapture.take t)).endsEarly = true := by
  have hrun : (ofTag { objects, limit := 1 } TagRegistry.defaultTag).run brokenCapture =
      ⟨.error ⟨.noObjectMapping "none", some (.node crate [.node dust []])⟩, ⟨49, [7]⟩,
        [⟨TagRegistry.defaultTag, 0, 0⟩, ⟨TagRegistry.defaultTag, 26, 1⟩]⟩ := by
    decide +kernel
  have hends : ((ofTag { objects, limit := 1 } TagRegistry.defaultTag).run
      brokenCapture).endsEarly = false := by
    rw [hrun]
    rfl
  have h := @determined_by_consumed { objects, limit := 1 } TagRegistry.standard_ofKinds
    TagRegistry.defaultTag brokenCapture hends
  rw [hrun] at h
  exact ⟨TagRegistry.standard_ofKinds, hends, h⟩

end Decoder

end WireCapture
