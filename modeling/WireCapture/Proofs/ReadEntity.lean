import WireCapture.Proofs.DepthLimit

/-!
# Where nested entities stand

A decoded tree is kept together with the bytes it was read from: those of every record,
and for every child those of its introducer and of the child itself. So each entity
stands in one range of the capture, and in this range its children stand one behind the
other. Decoding the range alone gives the entity again and takes all of the range; it
needs no more levels than the capture left for it.
-/
namespace WireCapture

theorem Body.kind_of_reader {version : UInt16} {kind : Kind} {c c' : Cursor} {b : Body}
    (h : reader version kind c = .ok b c') : b.kind = kind := by
  cases kind with
  | default =>
      cases h
      rfl
  | armor =>
      obtain ⟨g, _, rfl⟩ := map_eq_ok.mp h
      rfl
  | weapon =>
      obtain ⟨g, _, rfl⟩ := map_eq_ok.mp h
      rfl

theorem Record.kind_of_reader {kind : Kind} {c c' : Cursor} {r : Record}
    (h : reader kind c = .ok r c') : r.body.kind = kind := by
  obtain ⟨version, _, _, h⟩ := bind_eq_ok.mp h
  obtain ⟨header, _, _, h⟩ := bind_eq_ok.mp h
  obtain ⟨body, _, hb, h⟩ := bind_eq_ok.mp h
  cases h
  exact Body.kind_of_reader hb

/-- The standard registry has a reader for the tags of the kinds and no others. -/
theorem Kind.of_lookup {tag : Tag} {read : RecordReader}
    (h : TagRegistry.standard.lookup tag = .ok read) :
    ∃ kind : Kind, tag = kind.tag ∧ read = TagRegistry.ofKind kind := by
  have hmem := TagRegistry.mem_of_lookup h
  simp only [TagRegistry.standard, List.mem_cons, Prod.mk.injEq, List.not_mem_nil,
    or_false] at hmem
  rcases hmem with h | h | h
  · exact ⟨.default, h⟩
  · exact ⟨.armor, h⟩
  · exact ⟨.weapon, h⟩

theorem ObjectMapping.eq_some_of_resolve {x : Option Tag} {tag : Tag} {text : String}
    (h : resolve x text = .ok tag) : x = some tag := by
  unfold resolve at h
  split at h
  · split at h
    · cases h
    · cases h
      rfl
  · cases h

/-- An introducer that was read leads to its tag. -/
theorem LeadsTo.of_introducer {objects : ObjectMapping} {version : UInt16} {tag : Tag}
    {c c' : Cursor} (h : Decoder.introducer objects version c = .ok tag c') :
    ∃ lead, LeadsTo objects version tag lead ∧ c.Passes lead c' := by
  have hresolve : ∀ {x : Except Fault Tag} {d : Cursor},
      Reader.ofExcept x d = .ok tag c' → x = .ok tag ∧ d = c' := by
    intro x d hx
    cases x <;> cases hx
    exact ⟨rfl, rfl⟩
  unfold Decoder.introducer at h
  split at h
  · rename_i hv
    obtain ⟨name, d, hname, h⟩ := bind_eq_ok.mp h
    obtain ⟨field, hfield, rfl⟩ := map_eq_ok.mp hname
    obtain ⟨hm, rfl⟩ := hresolve h
    obtain ⟨n, hn, hl, hp⟩ := Reader.passes_of_counted hfield
    rw [Nat.mul_one] at hl
    subst hl
    exact ⟨_, .name hv hn (ObjectMapping.eq_some_of_resolve hm), hp⟩
  · rename_i hv
    obtain ⟨id, d, hid, h⟩ := bind_eq_ok.mp h
    obtain ⟨hm, rfl⟩ := hresolve h
    exact ⟨_, .number (UInt16.not_lt.mp hv) (ObjectMapping.eq_some_of_resolve hm),
      Reader.passes_of_u16 hid⟩

/-- An entity, the bytes of its record, and the entities below it behind the bytes of
their introducers. -/
inductive ReadEntity
  | node (own : Record) (front : Bytes) (sub : List (Bytes × ReadEntity))

namespace ReadEntity

def own : ReadEntity → Record
  | .node own _ _ => own

def front : ReadEntity → Bytes
  | .node _ front _ => front

def sub : ReadEntity → List (Bytes × ReadEntity)
  | .node _ _ sub => sub

def tag (t : ReadEntity) : Tag := t.own.body.kind.tag

theorem tag_isEmpty (t : ReadEntity) : t.tag.isEmpty = false := t.own.body.kind.tag_isEmpty

mutual

def bytes : ReadEntity → Bytes
  | .node _ front sub => front ++ bytesAll sub

def bytesAll : List (Bytes × ReadEntity) → Bytes
  | [] => []
  | (lead, t) :: sub => lead ++ bytes t ++ bytesAll sub

end

mutual

def entity : ReadEntity → Entity
  | .node own _ sub => .node own (entities sub)

def entities : List (Bytes × ReadEntity) → List Entity
  | [] => []
  | (_, t) :: sub => entity t :: entities sub

end

mutual

/-- An entity and all below it, each before its children, with the visits that enter
them: the first at the given offset, every child right behind its introducer. -/
def visits (level offset : Nat) : ReadEntity → List (Visit × ReadEntity)
  | .node own front sub =>
      (⟨own.body.kind.tag, offset, level⟩, .node own front sub) ::
        visitsAll (level + 1) (offset + front.length) sub

def visitsAll (level offset : Nat) : List (Bytes × ReadEntity) → List (Visit × ReadEntity)
  | [] => []
  | (lead, t) :: sub =>
      visits level (offset + lead.length) t ++
        visitsAll level (offset + lead.length + (bytes t).length) sub

end

theorem bytesAll_eq (sub : List (Bytes × ReadEntity)) :
    bytesAll sub = sub.flatMap fun p => p.1 ++ p.2.bytes := by
  induction sub with
  | nil => rfl
  | cons p sub ih => rw [bytesAll, ih, List.flatMap_cons]

theorem entities_eq (sub : List (Bytes × ReadEntity)) :
    entities sub = sub.map fun p => p.2.entity := by
  induction sub with
  | nil => rfl
  | cons p sub ih => rw [entities, ih, List.map_cons]

theorem bytes_eq (t : ReadEntity) :
    t.bytes = t.front ++ t.sub.flatMap fun p => p.1 ++ p.2.bytes := by
  cases t with
  | node own front sub => rw [bytes, bytesAll_eq]; rfl

mutual

theorem map_visits (level offset : Nat) (t : ReadEntity) :
    (t.visits level offset).map (fun p => (p.1.level, p.2.entity)) =
      t.entity.preorder level := by
  cases t with
  | node own front sub =>
      rw [visits, List.map_cons, map_visitsAll]
      simp only [entity, Entity.preorder]

theorem map_visitsAll (level offset : Nat) (sub : List (Bytes × ReadEntity)) :
    (visitsAll level offset sub).map (fun p => (p.1.level, p.2.entity)) =
      Entity.preorderAll level (entities sub) := by
  cases sub with
  | nil => rfl
  | cons p sub =>
      rw [visitsAll, List.map_append, map_visits level _ p.2, map_visitsAll level _ sub,
        entities, Entity.preorderAll]

end

/-- What is visited below a parent is visited below one of the children. -/
theorem exists_of_mem_visitsAll {level offset : Nat} {sub : List (Bytes × ReadEntity)}
    {p : Visit × ReadEntity} (h : p ∈ visitsAll level offset sub) :
    ∃ before lead t after, sub = before ++ (lead, t) :: after ∧
      p ∈ t.visits level (offset + (bytesAll before).length + lead.length) := by
  induction sub generalizing offset with
  | nil => cases h
  | cons q sub ih =>
      obtain ⟨lead, t⟩ := q
      rw [visitsAll, List.mem_append] at h
      rcases h with h | h
      · exact ⟨[], lead, t, sub, rfl, h⟩
      · obtain ⟨before, lead', t', after, rfl, hp⟩ := ih h
        refine ⟨(lead, t) :: before, lead', t', after, rfl, ?_⟩
        simp only [bytesAll, List.length_append]
        simpa only [Nat.add_assoc] using hp

variable {objects : ObjectMapping} {limit level room : Nat}

/-- Every record is read from its bytes, there are as many children as its header
counts, and the introducers lead to them. -/
inductive Genuine (objects : ObjectMapping) : ReadEntity → Prop
  | node {own : Record} {front : Bytes} {sub : List (Bytes × ReadEntity)}
      (record : Reads (Record.reader own.body.kind) front own)
      (count : sub.length = own.header.subCount.toNat)
      (leads : ∀ p ∈ sub, LeadsTo objects own.version p.2.tag p.1)
      (below : ∀ p ∈ sub, Genuine objects p.2) : Genuine objects (.node own front sub)

theorem Genuine.leadsTo {t : ReadEntity} (h : t.Genuine objects) :
    ∀ p ∈ t.sub, LeadsTo objects t.own.version p.2.tag p.1 := by
  cases h with
  | node _ _ leads _ => exact leads

/-- A genuine tree is read from its bytes wherever they stand, under any limit that
leaves levels for it. -/
theorem Genuine.reads_within {t : ReadEntity} (h : t.Genuine objects) (limit : Nat)
    (hroom : t.entity.height ≤ room) :
    Reads (Decoder.within { objects, limit } room t.tag) t.bytes t.entity := by
  induction h generalizing room with
  | @node own front sub record count leads below ih =>
      rw [entity, entities_eq] at hroom ⊢
      rw [bytes, bytesAll_eq]
      exact Decoder.reads_node record count leads (fun p _ => p.2.tag_isEmpty) hroom ih

/-- A decoding went from one session to another through the bytes of a tree. -/
structure Covers (objects : ObjectMapping) (level : Nat) (s : Session) (tree : ReadEntity)
    (t : Session) : Prop where
  genuine : tree.Genuine objects
  passes : s.cursor.Passes tree.bytes t.cursor
  visits : t.visits = ((tree.visits level s.cursor.pos).map Prod.fst).reverse ++ s.visits

/-- The same for the children below a parent of the given version. -/
structure CoversAll (objects : ObjectMapping) (level : Nat) (version : UInt16) (s : Session)
    (sub : List (Bytes × ReadEntity)) (t : Session) : Prop where
  genuine : ∀ p ∈ sub, p.2.Genuine objects
  leads : ∀ p ∈ sub, LeadsTo objects version p.2.tag p.1
  passes : s.cursor.Passes (bytesAll sub) t.cursor
  visits : t.visits = ((visitsAll level s.cursor.pos sub).map Prod.fst).reverse ++ s.visits

variable {version : UInt16} {s t u v : Session} {own : Record} {lead : Bytes}
  {tree : ReadEntity} {sub : List (Bytes × ReadEntity)}

theorem CoversAll.nil : CoversAll objects level version s [] s where
  genuine := by simp
  leads := by simp
  passes := ⟨rfl, rfl⟩
  visits := rfl

/-- The first child stands right behind its introducer. -/
theorem CoversAll.cons (hlead : LeadsTo objects version tree.tag lead)
    (hp : s.cursor.Passes lead t.cursor) (hv : t.visits = s.visits)
    (h : Covers objects level t tree u) (hs : CoversAll objects level version u sub v) :
    CoversAll objects level version s ((lead, tree) :: sub) v where
  genuine := List.forall_mem_cons.mpr ⟨h.genuine, hs.genuine⟩
  leads := List.forall_mem_cons.mpr ⟨hlead, hs.leads⟩
  passes := (hp.trans h.passes).trans hs.passes
  visits := by
    rw [hs.visits, h.visits, hv, h.passes.pos, hp.pos, visitsAll]
    simp

theorem CoversAll.node {front : Bytes} (hown : Reads (Record.reader own.body.kind) front own)
    (hcount : sub.length = own.header.subCount.toNat) (hp : s.cursor.Passes front t.cursor)
    (hv : t.visits = ⟨own.body.kind.tag, s.cursor.pos, level⟩ :: s.visits)
    (hs : CoversAll objects (level + 1) own.version t sub u) :
    Covers objects level s (.node own front sub) u where
  genuine := .node hown hcount hs.leads hs.genuine
  passes := hp.trans hs.passes
  visits := by
    rw [hs.visits, hv, hp.pos, ReadEntity.visits]
    simp

theorem exists_coversAll (objects : ObjectMapping) (level : Nat) (version : UInt16)
    {step : Decoder Entity} {es : List Entity} (h : Decoder.Steps step s es t)
    (hstep : ∀ s e t, step s = .ok e t → ∃ lead tree u, LeadsTo objects version tree.tag lead ∧
      s.cursor.Passes lead u.cursor ∧ u.visits = s.visits ∧ tree.entity = e ∧
      Covers objects level u tree t) :
    ∃ sub, entities sub = es ∧ CoversAll objects level version s sub t := by
  induction h with
  | nil s => exact ⟨[], rfl, .nil⟩
  | cons hs _ ih =>
      obtain ⟨lead, tree, u, hlead, hp, hv, rfl, htree⟩ := hstep _ _ _ hs
      obtain ⟨sub, rfl, hsub⟩ := ih
      exact ⟨(lead, tree) :: sub, rfl, .cons hlead hp hv htree hsub⟩

/-- A decoding that succeeds covers a tree of its entities. -/
theorem exists_covers {tag : Tag} {e : Entity} (hr : level + room = limit)
    (h : Decoder.within { objects, limit } room tag s = .ok e t) :
    ∃ tree : ReadEntity, tree.tag = tag ∧ tree.entity = e ∧ Covers objects level s tree t := by
  -- On the levels left. A child is one level further down and has one less left.
  induction room using Nat.strongRecOn generalizing level tag s e t with
  | ind room ih =>
      obtain ⟨own, u, es, hown, hs, hl, rfl⟩ := Decoder.within_eq_ok.mp h
      obtain ⟨read, hlookup, hread, hvisits⟩ := Decoder.recordOf_eq_ok.mp hown
      obtain ⟨kind, rfl, rfl⟩ := Kind.of_lookup hlookup
      have hkind := Record.kind_of_reader hread
      subst hkind
      obtain ⟨front, hp, hfront⟩ := Reader.reads_of_ok (Record.streams_reader _) hread
      obtain ⟨sub, rfl, hsub⟩ : ∃ sub, entities sub = es ∧
          CoversAll objects (level + 1) own.version u sub t := by
        apply exists_coversAll objects (level + 1) own.version hs
        intro s e t hstep
        obtain ⟨below, next, w, rfl, hi, hw⟩ := Decoder.childStep_eq_ok.mp hstep
        obtain ⟨hi, hv⟩ := Decoder.lift_eq_ok.mp hi
        obtain ⟨lead, hlead, hlp⟩ := LeadsTo.of_introducer hi
        have hbelow : level + 1 + below = limit := by omega
        obtain ⟨tree, rfl, he, htree⟩ := ih below (Nat.lt_succ_self below) hbelow hw
        exact ⟨lead, tree, w, hlead, hlp, hv, he, htree⟩
      have hlevel : limit - room = level := by omega
      rw [hlevel] at hvisits
      rw [entities_eq, List.length_map] at hl
      exact ⟨.node own front sub, rfl, rfl, hsub.node hfront hl hp hvisits⟩

variable {data : Bytes}

/-- A visit entered an entity where its bytes start, with levels left for all of it. -/
structure Stands (objects : ObjectMapping) (limit : Nat) (data : Bytes) (v : Visit)
    (t : ReadEntity) : Prop where
  genuine : t.Genuine objects
  room : v.level + t.entity.height ≤ limit
  place : ∃ before after, data = before ++ t.bytes ++ after ∧ before.length = v.offset

theorem Genuine.stands {t : ReadEntity} (h : t.Genuine objects) (before after : Bytes)
    (hdata : data = before ++ t.bytes ++ after) (hroom : level + t.entity.height ≤ limit) :
    ∀ p ∈ t.visits level before.length, Stands objects limit data p.1 p.2 := by
  induction h generalizing level before after with
  | @node own front sub record count leads below ih =>
      intro p hp
      rw [ReadEntity.visits, List.mem_cons] at hp
      rcases hp with rfl | hp
      · exact ⟨.node record count leads below, hroom, before, after, hdata, rfl⟩
      · obtain ⟨left, lead, t, right, rfl, hbelow⟩ := exists_of_mem_visitsAll hp
        have hmem : (lead, t) ∈ left ++ (lead, t) :: right := by simp
        have hheight : t.entity.height <
            Entity.heightAll (entities (left ++ (lead, t) :: right)) := by
          rw [entities_eq]
          exact Entity.heightAll_le_iff.mp (Nat.le_refl _) _ (List.mem_map_of_mem hmem)
        -- Before the child stand its introducer, its siblings and the record of its parent.
        have hlength : before.length + front.length + (bytesAll left).length + lead.length =
            (before ++ front ++ bytesAll left ++ lead).length := by
          simp only [List.length_append]
        rw [hlength] at hbelow
        apply ih (lead, t) hmem _ (bytesAll right ++ after) _ _ p hbelow
        · rw [hdata, bytes]
          simp [bytesAll_eq]
        · rw [entity, Entity.height] at hroom
          change level + 1 + t.entity.height ≤ limit
          omega

/-- An entity stands in one range of the capture, where a visit entered it. In the range,
its children stand one behind the other, separated by introducers that lead to their
kinds. Decoding the range alone gives the entity and takes all of the range, under any
limit that leaves as many levels as there were left. -/
structure SelfContained (objects : ObjectMapping) (limit : Nat) (data : Bytes) (v : Visit)
    (t : ReadEntity) : Prop where
  place : ∃ before after, data = before ++ t.bytes ++ after ∧ before.length = v.offset
  parts : t.bytes = t.front ++ t.sub.flatMap fun p => p.1 ++ p.2.bytes
  leads : ∀ p ∈ t.sub, p.2.tag.isEmpty = false ∧ LeadsTo objects t.own.version p.2.tag p.1
  alone : ∀ other, limit - v.level ≤ other →
    let outcome := (Decoder.ofTag { objects, limit := other } t.tag).run t.bytes
    outcome.result = .ok t.entity ∧ outcome.cursor = ⟨t.bytes.length, []⟩

theorem Stands.selfContained {v : Visit} {t : ReadEntity} (h : Stands objects limit data v t) :
    SelfContained objects limit data v t where
  place := h.place
  parts := t.bytes_eq
  leads := fun p hp => ⟨p.2.tag_isEmpty, h.genuine.leadsTo p hp⟩
  alone := by
    intro other hother
    have hroom : t.entity.height ≤ other := by
      have := h.room
      omega
    obtain ⟨visits, hrun⟩ := Decoder.run_of_settles (h.genuine.reads_within other hroom)
    have hrun := hrun []
    rw [List.append_nil] at hrun
    change _ ∧ _
    rw [Decoder.ofTag, hrun]
    exact ⟨rfl, rfl⟩

end ReadEntity

/-- A successful decoding read a tree of bytes, the tree of its entities: every entity of
it is self-contained, was entered at the start of its range, and the whole tree ends where
decoding stopped. -/
theorem Decoder.decoded_self_contained {objects : ObjectMapping} {limit : Nat} {tag : Tag}
    {data : Bytes} {e : Entity}
    (h : ((ofTag { objects, limit } tag).run data).result = .ok e) :
    let outcome := (ofTag { objects, limit } tag).run data
    ∃ (t : ReadEntity) (rest : Bytes), t.tag = tag ∧ t.entity = e ∧ data = t.bytes ++ rest ∧
      outcome.cursor = ⟨t.bytes.length, rest⟩ ∧
      outcome.visits = (t.visits 0 0).map Prod.fst ∧
      e.preorder 0 = (t.visits 0 0).map (fun p => (p.1.level, p.2.entity)) ∧
      ∀ p ∈ t.visits 0 0, ReadEntity.SelfContained objects limit data p.1 p.2 := by
  intro outcome
  obtain ⟨s, hs⟩ := run_eq_ok h
  obtain ⟨t, htag, rfl, ht⟩ := ReadEntity.exists_covers (Nat.zero_add limit) hs
  have hdata : data = t.bytes ++ s.cursor.rest := ht.passes.rest
  have hpos : s.cursor.pos = t.bytes.length := ht.passes.pos.trans (Nat.zero_add _)
  have houtcome : outcome = ⟨.ok t.entity, s.cursor, s.visits.reverse⟩ := run_of_ok hs
  have hvisits : s.visits.reverse = (t.visits 0 0).map Prod.fst := by
    rw [ht.visits]
    simp [Cursor.ofBytes]
  have hroom : 0 + t.entity.height ≤ limit := by
    rw [Nat.zero_add]
    exact height_le_of_within hs
  refine ⟨t, s.cursor.rest, htag, rfl, hdata, ?_, ?_, (t.map_visits 0 0).symm, ?_⟩
  · rw [houtcome, ← hpos]
  · rw [houtcome, hvisits]
  · intro p hp
    exact (ht.genuine.stands [] _ hdata hroom p hp).selfContained

open Sample in
/-- The blade in the vest stands behind the number that introduces it. -/
theorem Decoder.decoded_self_contained_vestCapture :
    ((ofTag { objects, limit := 1 } TagRegistry.armorTag).run vestCapture).result =
      .ok (.node vest [.node blade []]) ∧
    ∃ t : ReadEntity, t.entity = .node blade [] ∧
      ReadEntity.SelfContained objects 1 vestCapture ⟨TagRegistry.weaponTag, 71, 1⟩ t := by
  have hrun : ((ofTag { objects, limit := 1 } TagRegistry.armorTag).run vestCapture).result =
      .ok (.node vest [.node blade []]) := by
    decide +kernel
  have hentered : ((ofTag { objects, limit := 1 } TagRegistry.armorTag).run vestCapture).visits =
      [⟨TagRegistry.armorTag, 0, 0⟩, ⟨TagRegistry.weaponTag, 71, 1⟩] := by
    decide +kernel
  obtain ⟨t, rest, _, _, _, _, hvisits, hlevels, hall⟩ := decoded_self_contained hrun
  rw [hentered] at hvisits
  obtain ⟨p, _, hcons, _, hmore⟩ := List.map_eq_cons_iff.mp hvisits.symm
  obtain ⟨⟨v, t⟩, _, rfl, rfl, hnil⟩ := List.map_eq_cons_iff.mp hmore
  obtain rfl := List.map_eq_nil_iff.mp hnil
  rw [hcons] at hlevels hall
  have hblade : (1, Entity.node blade []) = (1, t.entity) :=
    (List.cons.inj (List.cons.inj hlevels).2).1
  have hself := hall (⟨TagRegistry.weaponTag, 71, 1⟩, t) (by simp)
  exact ⟨hrun, t, (Prod.mk.inj hblade).2.symm, hself⟩

end WireCapture
