import WireCapture.Proofs.MoreBytes

/-!
# The cost of decoding

Decoding enters few entities for the bytes it reads. No record is shorter than 18 bytes
and no introducer shorter than one, so every entity but the outermost pays for itself
with 19 bytes. A session keeps a balance of the bytes read and the entities entered; each
part of a decoding changes it by a known amount, so a whole decoding does too. The sizes
of trees, the number of visits and the levels are therefore bounded by the input, whatever
number of children the records ask for and however high the limit is.
-/
namespace WireCapture

namespace Reader

/-- What the reader reads takes at least `n` bytes. -/
def Takes {α : Type} (n : Nat) (r : Reader α) : Prop :=
  ∀ c a c', r c = .ok a c' → c.pos + n ≤ c'.pos

variable {α β : Type} {m n : Nat} {r : Reader α}

namespace Takes

theorem mono (h : Takes n r) (hmn : m ≤ n) : Takes m r :=
  fun c a c' hr => Nat.le_trans (Nat.add_le_add_left hmn c.pos) (h c a c' hr)

theorem of_streams (h : Streams r) : Takes 0 r := by
  intro c a c' hr
  obtain ⟨used, hused, -⟩ := reads_of_ok h hr
  rw [hused.pos]
  exact Nat.le_add_right _ _

theorem throw (n : Nat) (e : Fault) : Takes n (MonadExcept.throw e : Reader α) := by
  intro c a c' h
  cases h

/-- What is left of `n` bytes after a first part is up to the second. -/
theorem bind {f : α → Reader β} (h : Takes m r) (k : ∀ a, Takes (n - m) (f a)) :
    Takes n (r >>= f) := by
  intro c b c' hb
  obtain ⟨a, d, hr, hf⟩ := bind_eq_ok.mp hb
  have hfirst := h c a d hr
  have hsecond := k a d b c' hf
  omega

theorem map {g : α → β} (h : Takes n r) : Takes n (g <$> r) := by
  intro c b c' hb
  obtain ⟨a, hr, -⟩ := map_eq_ok.mp hb
  exact h c a c' hr

theorem ite {p : Prop} [Decidable p] {r' : Reader α} (h : Takes n r) (k : Takes n r') :
    Takes n (if p then r else r') := by
  split
  · exact h
  · exact k

end Takes

theorem takes_take (n : Nat) : Takes n (take n) := by
  intro c bs c' h
  obtain ⟨rfl, hpasses⟩ := passes_of_take h
  exact Nat.le_of_eq hpasses.pos.symm

theorem takes_u8 : Takes 1 u8 := (takes_take 1).map.map

theorem takes_u16 : Takes 2 u16 := (takes_take 2).map.map

theorem takes_u32 : Takes 4 u32 := (takes_take 4).map.map

theorem takes_i32 : Takes 4 i32 := takes_u32.map

theorem takes_single : Takes 4 single := takes_u32.map

theorem takes_version (what : Versioned) : Takes 2 (version what) :=
  takes_u16.bind fun v => .ite (.throw _ _) (.of_streams (.pure v))

theorem takes_countedText (width : Nat) : Takes width (countedText width) := by
  refine Takes.map ?_
  intro c bs c' h
  obtain ⟨n, -, -, hpasses⟩ := passes_of_counted h
  rw [hpasses.pos, List.length_append, Word.length_bytes]
  exact Nat.add_le_add_left (Nat.le_add_right _ _) _

end Reader

open Reader

namespace ObjectHeader

theorem takes_legacyReader (version : UInt16) : Takes 16 (legacyReader version) := by
  have hcoordinate : Takes 4 (legacyCoordinate version) := .ite takes_i32.map takes_single
  refine takes_u32.bind fun _ => takes_u32.bind fun _ => ?_
  refine hcoordinate.bind fun _ => hcoordinate.bind fun _ => ?_
  refine .of_streams ((streams_gated _ (streams_countedText 1)).bind fun _ => ?_)
  refine (streams_gated _ streams_u8).bind fun _ => ?_
  exact (streams_gated _ streams_u8).bind fun _ => .pure _

theorem takes_currentReader (version : UInt16) : Takes 17 (currentReader version) := by
  refine takes_u32.bind fun _ => takes_u32.bind fun _ => ?_
  refine takes_single.bind fun _ => takes_single.bind fun _ => takes_u8.bind fun _ => ?_
  exact .of_streams (.ite (.pure _) (streams_presentReader _))

theorem takes_reader (version : UInt16) : Takes 16 (reader version) := by
  refine .ite (takes_legacyReader version) ?_
  refine (takes_version .header).bind fun subVersion => ?_
  exact .ite (.throw _ _) ((takes_currentReader subVersion).mono (by decide))

end ObjectHeader

theorem Record.takes_reader (kind : Kind) : Takes 18 (Record.reader kind) := by
  refine (takes_version kind.versioned).bind fun version => ?_
  refine (ObjectHeader.takes_reader version).bind fun _ => .of_streams ?_
  exact (Body.streams_reader version kind).bind fun _ => .pure _

theorem Decoder.takes_introducer (objects : ObjectMapping) (version : UInt16) :
    Takes 1 (introducer objects version) := by
  have hmapped : ∀ x : Except Fault Tag, Takes 0 (Reader.ofExcept x) := by
    intro x
    cases x with
    | ok tag => exact .of_streams (.pure tag)
    | error e => exact .throw 0 e
  refine .ite ?_ ?_
  · exact (takes_countedText 1).bind fun name => hmapped _
  · exact takes_u16.bind fun id => hmapped _

/-- The bytes read so far less 19 for each entity that was entered. -/
def Session.balance (s : Session) : Int := s.cursor.pos - 19 * s.visits.length

/-- The entity that was decoded, or the part of one that a failure keeps. -/
def DecodeOutcome.entity? (o : DecodeOutcome) : Option Entity :=
  match o.result with
  | .ok e => some e
  | .error f => f.kept

namespace Decoder

theorem pos_le_of_error {α : Type} {d : Decoder α} (h : Streams d) {s t : Session}
    {f : DecodeFailure} (hd : d s = .error f t) : s.cursor.pos ≤ t.cursor.pos := by
  obtain ⟨used, hused⟩ := exists_passes h s
  rw [hd] at hused
  exact hused.pos_le

section Balance

variable {rules : DecodeRules} {level room : Nat} {tag : Tag} {version : UInt16}
  {s t : Session} {own : Record} {e : Entity} {es : List Entity} {f : DecodeFailure}

theorem pos_of_recordOf (hk : rules.types.OfKinds)
    (h : recordOf rules level tag s = .ok own t) : s.cursor.pos + 18 ≤ t.cursor.pos := by
  obtain ⟨read, hl, hread, -⟩ := recordOf_eq_ok.mp h
  obtain ⟨kind, hkind⟩ := hk _ (TagRegistry.mem_of_lookup hl)
  change read = TagRegistry.ofKind kind at hkind
  subst hkind
  exact Record.takes_reader kind _ _ _ hread

theorem pos_of_introducer {objects : ObjectMapping}
    (h : lift (introducer objects version) s = .ok tag t) : s.cursor.pos + 1 ≤ t.cursor.pos :=
  takes_introducer objects version _ _ _ (lift_eq_ok.mp h).1

/-- A record costs one byte more than it has. -/
theorem balance_of_recordOf (hk : rules.types.OfKinds)
    (h : recordOf rules level tag s = .ok own t) : s.balance ≤ t.balance + 1 := by
  have hpos := pos_of_recordOf hk h
  obtain ⟨_, -, -, hvisits⟩ := recordOf_eq_ok.mp h
  rw [Session.balance, Session.balance, hvisits, List.length_cons]
  omega

theorem balance_of_recordOf_error (hk : rules.types.OfKinds)
    (h : recordOf rules level tag s = .error f t) : s.balance ≤ t.balance + 19 := by
  have hpos := pos_le_of_error (streams_recordOf hk level tag) h
  have hvisits := recordOf_visits rules level tag s
  rw [h] at hvisits
  have hlength : t.visits.length ≤ s.visits.length + 1 := by
    change t.visits = _ at hvisits
    rw [hvisits]
    split <;> simp
  rw [Session.balance, Session.balance]
  omega

/-- An introducer brings the byte that the record behind it lacks. -/
theorem balance_of_introducer {objects : ObjectMapping}
    (h : lift (introducer objects version) s = .ok tag t) : s.balance + 1 ≤ t.balance := by
  have hpos := pos_of_introducer h
  rw [Session.balance, Session.balance, (lift_eq_ok.mp h).2]
  omega

theorem balance_of_introducer_error {objects : ObjectMapping}
    (h : lift (introducer objects version) s = .error f t) : s.balance ≤ t.balance := by
  have hpos := pos_le_of_error (streams_lift (streams_introducer objects version)) h
  rw [Session.balance, Session.balance, (lift_eq_error.mp h).2.2]
  omega

theorem Steps.balance_le {step : Decoder Entity} (h : Steps step s es t)
    (hstep : ∀ s e t, step s = .ok e t → s.balance ≤ t.balance) : s.balance ≤ t.balance := by
  induction h with
  | nil s => exact Int.le_refl _
  | cons hs _ ih => exact Int.le_trans (hstep _ _ _ hs) ih

theorem balance_of_childStep
    (htree : ∀ below tag s e t, room = below + 1 → within rules below tag s = .ok e t →
      s.balance ≤ t.balance + 1)
    (h : childStep rules room version s = .ok e t) : s.balance ≤ t.balance := by
  obtain ⟨below, next, u, hroom, hi, hw⟩ := childStep_eq_ok.mp h
  have hlead := balance_of_introducer hi
  have hchild := htree below next u e t hroom hw
  omega

/-- A record and the children behind it so far cost one byte more than they have. -/
theorem balance_of_front (hk : rules.types.OfKinds) {u : Session}
    (htree : ∀ below tag s e t, room = below + 1 → within rules below tag s = .ok e t →
      s.balance ≤ t.balance + 1)
    (hown : recordOf rules level tag s = .ok own t)
    (hs : Steps (childStep rules room version) t es u) : s.balance ≤ u.balance + 1 := by
  have hrecord := balance_of_recordOf hk hown
  have hchildren := hs.balance_le fun _ _ _ => balance_of_childStep htree
  omega

theorem balance_of_within (hk : rules.types.OfKinds)
    (h : within rules room tag s = .ok e t) : s.balance ≤ t.balance + 1 := by
  induction room using Nat.strongRecOn generalizing tag s e t with
  | ind room ih =>
      obtain ⟨own, u, es, hown, hs, -, -⟩ := within_eq_ok.mp h
      exact balance_of_front hk (fun below _ _ _ _ hroom => ih below (by omega)) hown hs

/-- A failure leaves at most one entity, the one that failed, unpaid. -/
theorem balance_of_within_error (hk : rules.types.OfKinds)
    (h : within rules room tag s = .error f t) : s.balance ≤ t.balance + 19 := by
  induction room using Nat.strongRecOn generalizing tag s f t with
  | ind room ih =>
      rcases within_eq_error.mp h with hown | ⟨own, u, es, v, g, hown, hs, -, hg, -⟩
      · exact balance_of_recordOf_error hk hown
      · have hfront := balance_of_front hk (fun _ _ _ _ _ _ => balance_of_within hk) hown hs
        rcases childStep_eq_error.mp hg with ⟨-, -, rfl⟩ | ⟨below, rfl, hstop⟩
        · omega
        · rcases hstop with hi | ⟨next, w, hi, hw⟩
          · have hlead := balance_of_introducer_error hi
            omega
          · have hlead := balance_of_introducer hi
            have htree := ih below (Nat.lt_succ_self below) hw
            omega

end Balance

/-- The visits so far have the levels of a record and the children read behind it. -/
theorem map_level_of_front {rules : DecodeRules} {level room : Nat} {tag : Tag}
    {version : UInt16} {s t u : Session} {own : Record} {es : List Entity}
    (hr : level + room = rules.limit) (hown : recordOf rules level tag s = .ok own t)
    (hs : Steps (childStep rules room version) t es u) :
    u.visits.map Visit.level = levelsAll level [.node own es] ++ s.visits.map Visit.level := by
  obtain ⟨_, -, -, hvisits⟩ := recordOf_eq_ok.mp hown
  have hchildren : u.visits.map Visit.level =
      levelsAll (level + 1) es ++ t.visits.map Visit.level := hs.map_level fun s e t hstep => by
    obtain ⟨below, next, v, rfl, hi, hw⟩ := childStep_eq_ok.mp hstep
    have hbelow : level + 1 + below = rules.limit := by omega
    rw [map_level_of_within hbelow hw, (lift_eq_ok.mp hi).2]
  rw [hchildren, hvisits, levelsAll_node, List.map_cons, List.append_assoc]
  rfl

section Calls

variable {rules : DecodeRules} {c d : Call}

/-- Between the starts of two calls stand a record and an introducer at least. -/
theorem Nests.passes (hk : rules.types.OfKinds) (h : Nests rules c d) :
    d.level = c.level + 1 ∧
      ∃ used, c.start.cursor.Passes used d.start.cursor ∧ 19 ≤ used.length := by
  cases h with
  | @child level tag next s t u own hlt hown hnext =>
      obtain ⟨es, v, hs, -, hi⟩ := hnext
      have hchild := streams_childStep hk (rules.limit - level) own.version
      have hlead := streams_lift (streams_introducer rules.objects own.version)
      obtain ⟨front, hfront⟩ := exists_passes_of_ok (streams_recordOf hk level tag) hown
      obtain ⟨middle, hmiddle⟩ := hs.exists_passes hchild
      obtain ⟨lead, hlead⟩ := exists_passes_of_ok hlead hi
      refine ⟨rfl, _, (hfront.trans hmiddle).trans hlead, ?_⟩
      have hrecord := pos_of_recordOf hk hown
      have hname := pos_of_introducer hi
      have hpos := ((hfront.trans hmiddle).trans hlead).pos
      have hmid := hmiddle.pos_le
      simp only [List.length_append] at hpos ⊢
      omega

theorem Reaches.passes (hk : rules.types.OfKinds) (h : Reaches rules c d) :
    ∃ used, c.start.cursor.Passes used d.start.cursor ∧
      19 * d.level ≤ 19 * c.level + used.length := by
  induction h with
  | refl => exact ⟨[], ⟨rfl, rfl⟩, Nat.le_refl _⟩
  | tail _ hstep ih =>
      obtain ⟨used, hused, hlevel⟩ := ih
      obtain ⟨hnext, more, hmore, hlength⟩ := hstep.passes hk
      refine ⟨used ++ more, hused.trans hmore, ?_⟩
      rw [List.length_append]
      omega

/-- A call that has nested calls entered its entity. -/
theorem Nests.contains (h : Nests rules c d) : rules.types.contains c.tag = true := by
  cases h with
  | child _ hown _ =>
      obtain ⟨read, hlookup, -⟩ := recordOf_eq_ok.mp hown
      exact TagRegistry.contains_of_lookup hlookup

/-- No calls are nested forever. -/
theorem nests_wellFounded (rules : DecodeRules) :
    WellFounded fun inner outer => Nests rules outer inner := by
  refine Subrelation.wf ?_ (measure fun c : Call => rules.limit - c.level).wf
  intro inner outer h
  cases h with
  | @child level _ _ _ _ _ _ hlt _ _ =>
      change rules.limit - (level + 1) < rules.limit - level
      omega

end Calls

section Runs

variable {rules : DecodeRules} {tag : Tag} {data : Bytes}

theorem balance_ofBytes (data : Bytes) : Session.balance ⟨.ofBytes data, []⟩ = 0 := rfl

theorem length_levelsAll (level : Nat) (e : Entity) :
    (levelsAll level [e]).length = (e.preorder level).length := by
  simp [levelsAll, Entity.preorderAll]

theorem run_cursor (d : Decoder Entity) (data : Bytes) :
    (d.run data).cursor = (stop (d ⟨.ofBytes data, []⟩)).cursor := by
  cases h : d ⟨.ofBytes data, []⟩ with
  | ok e t => rw [run_of_ok h]; rfl
  | error f t => rw [run_of_error h]; rfl

theorem run_pos_le (hk : rules.types.OfKinds) :
    ((ofTag rules tag).run data).cursor.pos ≤ data.length := by
  obtain ⟨used, hused⟩ := exists_passes (streams_ofTag hk tag) ⟨.ofBytes data, []⟩
  have htotal := hused.total
  rw [← run_cursor] at htotal
  change _ = 0 + data.length at htotal
  omega

theorem reaches_level_le (hk : rules.types.OfKinds) {call : Call}
    (h : Reaches rules (.first tag data) call) : 19 * call.level ≤ data.length := by
  obtain ⟨used, hused, hlevel⟩ := h.passes hk
  have htotal := hused.total
  have hstart := hused.pos
  change _ = 0 + data.length at htotal
  change _ = 0 + used.length at hstart
  change 19 * call.level ≤ 19 * 0 + used.length at hlevel
  omega

/-- In front of where decoding ends, the entities of the tree have been entered. -/
theorem size_of_levels {e : Entity} {s : Session}
    (hlevels : s.visits.map Visit.level = levelsAll 0 [e] ++ [])
    (hbalance : 0 ≤ s.balance + 1) : 19 * e.size ≤ s.cursor.pos + 1 := by
  have hlength : s.visits.length = e.size := by
    rw [← List.length_map Visit.level, hlevels, List.append_nil, length_levelsAll, Entity.size]
  rw [Session.balance, hlength] at hbalance
  omega

theorem run_size_le (hk : rules.types.OfKinds) {e : Entity}
    (h : ((ofTag rules tag).run data).entity? = some e) :
    19 * e.size ≤ ((ofTag rules tag).run data).cursor.pos + 1 := by
  have hroom : 0 + rules.limit = rules.limit := Nat.zero_add _
  cases hd : ofTag rules tag ⟨.ofBytes data, []⟩ with
  | ok e' t =>
      rw [run_of_ok hd] at h ⊢
      cases h
      exact size_of_levels (map_level_of_within hroom hd) (balance_of_within hk hd)
  | error f t =>
      rw [run_of_error hd] at h ⊢
      rcases within_eq_error.mp hd with hown | ⟨own, u, es, v, g, hown, hs, -, hg, rfl⟩
      · change f.kept = some e at h
        rw [recordOf_keeps_nothing hown] at h
        cases h
      · cases h
        have hfront := balance_of_front hk (fun _ _ _ _ _ _ => balance_of_within hk) hown hs
        rw [Nat.sub_self] at hown
        have hsize := size_of_levels (map_level_of_front hroom hown hs) hfront
        have hstop := pos_le_of_error (streams_childStep hk rules.limit own.version) hg
        exact Nat.le_trans hsize (Nat.succ_le_succ hstop)

theorem run_visits_le (hk : rules.types.OfKinds) :
    19 * ((ofTag rules tag).run data).visits.length ≤
      ((ofTag rules tag).run data).cursor.pos + 19 := by
  have hbalance : 0 ≤ (stop (ofTag rules tag ⟨.ofBytes data, []⟩)).balance + 19 := by
    cases hd : ofTag rules tag ⟨.ofBytes data, []⟩ with
    | ok e t =>
        have htree := balance_of_within hk hd
        rw [balance_ofBytes] at htree
        change 0 ≤ t.balance + 19
        omega
    | error f t => exact balance_of_within_error hk hd
  rw [run_visits, run_cursor, List.length_reverse]
  rw [Session.balance] at hbalance
  omega

/-- An entity on a lower level is entered in one that was entered a record and an introducer
before it. -/
theorem visit_of_run (hk : rules.types.OfKinds) {visit : Visit}
    (h : visit ∈ ((ofTag rules tag).run data).visits) :
    visit.level ≤ rules.limit ∧ 19 * visit.level ≤ data.length ∧
      (visit.level = 0 ∨ ∃ parent ∈ ((ofTag rules tag).run data).visits,
        visit.level = parent.level + 1 ∧ parent.offset + 19 ≤ visit.offset) := by
  obtain ⟨call, hcall, -, rfl⟩ := mem_run_visits.mp h
  refine ⟨hcall.level_le (Nat.zero_le rules.limit), reaches_level_le hk hcall, ?_⟩
  cases hcall with
  | refl => exact .inl rfl
  | @tail parent _ hparent hnests =>
      obtain ⟨hlevel, used, hused, hlength⟩ := hnests.passes hk
      refine .inr ⟨parent.visit, mem_run_visits.mpr ⟨parent, hparent, hnests.contains, rfl⟩,
        hlevel, ?_⟩
      change parent.start.cursor.pos + 19 ≤ call.start.cursor.pos
      rw [hused.pos]
      omega

end Runs

/-- However many children the records ask for and however high the limit is: a tree of `n`
entities, whether decoded or kept by a failure, takes `19 * n - 1` bytes of the input at
least. Levels grow by one from an entity to those in it, which start 19 bytes further on at
least, and go as far as the limit and the input have room for, so they fit wherever the
limit does; where an entity at the limit asks for children, decoding fails in place of
counting on. No calls for entities are nested forever. -/
theorem work_bounded_by_input (objects : ObjectMapping) (limit : Nat) (tag : Tag)
    (data : Bytes) :
    let rules : DecodeRules := { objects, limit }
    let outcome := (ofTag rules tag).run data
    outcome.cursor.pos ≤ data.length ∧
    (∀ e, outcome.entity? = some e →
      19 * e.size ≤ outcome.cursor.pos + 1 ∧ e.size ≤ (data.length + 1) / 19) ∧
    19 * outcome.visits.length ≤ outcome.cursor.pos + 19 ∧
    (∀ visit ∈ outcome.visits, visit.level ≤ limit ∧ 19 * visit.level ≤ data.length ∧
      (visit.level = 0 ∨ ∃ parent ∈ outcome.visits, visit.level = parent.level + 1 ∧
        parent.offset + 19 ≤ visit.offset)) ∧
    (∀ call, Reaches rules (.first tag data) call →
      call.level ≤ limit ∧ 19 * call.level ≤ data.length ∧
        ∀ own after, recordOf rules call.level call.tag call.start = .ok own after →
          own.header.subCount ≠ 0 →
          call.level + 1 ≤ limit ∨ outcome.fault? = some (.nestingTooDeep limit)) ∧
    WellFounded fun inner outer => Nests rules outer inner := by
  intro rules outcome
  have hk : rules.types.OfKinds := TagRegistry.standard_ofKinds
  have hpos : outcome.cursor.pos ≤ data.length := run_pos_le hk
  refine ⟨hpos, ?_, run_visits_le hk, fun _ => visit_of_run hk, ?_, nests_wellFounded rules⟩
  · intro e he
    have hsize : 19 * e.size ≤ outcome.cursor.pos + 1 := run_size_le hk he
    refine ⟨hsize, ?_⟩
    rw [Nat.le_div_iff_mul_le (by decide)]
    omega
  · intro call hcall
    have hlevel : call.level ≤ limit := hcall.level_le (Nat.zero_le limit)
    refine ⟨hlevel, reaches_level_le hk hcall, fun own after hown hsub => ?_⟩
    rcases Nat.lt_or_eq_of_le hlevel with hlt | heq
    · exact .inl hlt
    · obtain ⟨hfault, -⟩ := (run_tooDeep_iff hk).mpr
        ⟨rfl, call, own, after, hcall, heq, hown, hsub, rfl⟩
      exact .inr hfault

open Sample in
/-- A crate with its dust costs 37 of the 49 bytes that are read, also under the highest
limit of 64 bits. -/
theorem work_bounded_by_input_brokenCapture :
    ((ofTag { objects, limit := 2 ^ 64 - 1 } TagRegistry.defaultTag).run
      brokenCapture).entity? = some (.node crate [.node dust []]) ∧
    19 * (Entity.node crate [.node dust []]).size ≤
      ((ofTag { objects, limit := 2 ^ 64 - 1 } TagRegistry.defaultTag).run
        brokenCapture).cursor.pos + 1 ∧
    (Entity.node crate [.node dust []]).size ≤ (brokenCapture.length + 1) / 19 ∧
    (∃ parent ∈ ((ofTag { objects, limit := 2 ^ 64 - 1 } TagRegistry.defaultTag).run
      brokenCapture).visits, 1 = parent.level + 1 ∧ parent.offset + 19 ≤ 26) ∧
    ∃ call, Reaches { objects, limit := 2 ^ 64 - 1 }
        (.first TagRegistry.defaultTag brokenCapture) call ∧
      call.visit = ⟨TagRegistry.defaultTag, 26, 1⟩ ∧ 19 * call.level ≤ brokenCapture.length := by
  have hrun : ((ofTag { objects, limit := 2 ^ 64 - 1 } TagRegistry.defaultTag).run
      brokenCapture).entity? = some (.node crate [.node dust []]) := by
    decide +kernel
  have hvisit : ⟨TagRegistry.defaultTag, 26, 1⟩ ∈
      ((ofTag { objects, limit := 2 ^ 64 - 1 } TagRegistry.defaultTag).run
        brokenCapture).visits := by
    decide +kernel
  obtain ⟨call, hcall, -, hentered⟩ := mem_run_visits.mp hvisit
  obtain ⟨-, hsize, -, hvisits, hcalls, -⟩ :=
    work_bounded_by_input objects (2 ^ 64 - 1) TagRegistry.defaultTag brokenCapture
  obtain ⟨hmost, hleast⟩ := hsize _ hrun
  obtain ⟨-, -, hparent⟩ := hvisits _ hvisit
  exact ⟨hrun, hmost, hleast, hparent.resolve_left (by decide), call, hcall, hentered,
    (hcalls call hcall).2.1⟩

end Decoder

end WireCapture
