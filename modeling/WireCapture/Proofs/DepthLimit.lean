import WireCapture.Proofs.Calls
import WireCapture.Proofs.RecordFaults
import WireCapture.Proofs.WrittenEntity

/-!
# The depth limit

A limit on the levels adds one failure and changes nothing else. Under a higher limit
a decoding that does not fail at the limit takes the same course, and a tree is decoded
under every limit that its height keeps. The failure at the limit is that of a call at
the lowest level whose record asks for children; it comes before any of their bytes.
-/
namespace WireCapture

def Fault.isNestingTooDeep : Fault → Bool
  | .nestingTooDeep _ => true
  | _ => false

theorem Fault.not_nestingTooDeep {e : Fault} (h : e.ofIntroducer = true) :
    e.isNestingTooDeep = false := by
  cases e <;> simp_all [ofIntroducer, ofRecord, isNestingTooDeep]

/-- The fault that ended a decoding, if one did. -/
def DecodeOutcome.fault? (o : DecodeOutcome) : Option Fault :=
  match o.result with
  | .ok _ => none
  | .error f => some f.fault

namespace Decoder

theorem recordOf_fault {rules : DecodeRules} (hk : rules.types.OfKinds) {level : Nat}
    {tag : Tag} {s t : Session} {f : DecodeFailure}
    (h : recordOf rules level tag s = .error f t) : f.fault.isNestingTooDeep = false := by
  unfold recordOf at h
  cases hl : rules.types.lookup tag with
  | error e =>
      rw [hl] at h
      cases h
      rw [TagRegistry.lookup_fault hl]
      rfl
  | ok read =>
      rw [hl] at h
      change lift (read level) ⟨s.cursor, ⟨tag, s.cursor.pos, level⟩ :: s.visits⟩ = _ at h
      obtain ⟨kind, hkind⟩ := hk _ (TagRegistry.mem_of_lookup hl)
      change read = TagRegistry.ofKind kind at hkind
      subst hkind
      have hrecord := Record.faults_reader kind _ _ _ (lift_eq_error.mp h).1
      exact Fault.not_nestingTooDeep (Fault.ofIntroducer_of_ofRecord hrecord)

theorem introducer_fault {objects : ObjectMapping} {version : UInt16} {s t : Session}
    {f : DecodeFailure} (h : lift (introducer objects version) s = .error f t) :
    f.fault.isNestingTooDeep = false :=
  Fault.not_nestingTooDeep (faults_introducer objects version _ _ _ (lift_eq_error.mp h).1)

theorem childStep_eq_error {rules : DecodeRules} {room : Nat} {version : UInt16}
    {s t : Session} {f : DecodeFailure} : childStep rules room version s = .error f t ↔
      room = 0 ∧ f = ⟨.nestingTooDeep rules.limit, none⟩ ∧ t = s ∨
      ∃ below, room = below + 1 ∧ (lift (introducer rules.objects version) s = .error f t ∨
        ∃ tag u, lift (introducer rules.objects version) s = .ok tag u ∧
          within rules below tag u = .error f t) := by
  cases room with
  | zero =>
      constructor
      · intro h
        cases h
        exact .inl ⟨rfl, rfl, rfl⟩
      · intro h
        rcases h with ⟨_, rfl, rfl⟩ | ⟨_, h, _⟩
        · rfl
        · cases h
  | succ room =>
      rw [childStep_succ, introduced, bind_eq_error]
      constructor
      · exact fun h => .inr ⟨room, rfl, h⟩
      · intro h
        rcases h with ⟨h, _⟩ | ⟨_, ⟨⟩, h⟩
        · cases h
        · exact h

theorem Steps.mono {step step' : Decoder Entity} {s t : Session} {es : List Entity}
    (h : Steps step s es t)
    (hstep : ∀ e ∈ es, ∀ s t, step s = .ok e t → step' s = .ok e t) : Steps step' s es t := by
  induction h with
  | nil s => exact .nil s
  | cons hs _ ih =>
      refine .cons (hstep _ List.mem_cons_self _ _ hs) (ih ?_)
      exact fun e he => hstep e (List.mem_cons_of_mem _ he)

section Limits

variable {types : TagRegistry RecordReader} {objects : ObjectMapping} {limit room : Nat}
  {tag : Tag} {s t : Session} {e : Entity} {f : DecodeFailure}

/-- With `room` levels left below it, an entity has at most that height. -/
theorem height_le_of_within (h : within { types, objects, limit } room tag s = .ok e t) :
    e.height ≤ room := by
  induction room using Nat.strongRecOn generalizing tag s e t with
  | ind room ih =>
      obtain ⟨own, u, es, _, hs, _, rfl⟩ := within_eq_ok.mp h
      rw [Entity.height, Entity.heightAll_le_iff]
      refine hs.forall_mem ?_
      intro s t e hstep
      obtain ⟨below, next, v, rfl, _, hw⟩ := childStep_eq_ok.mp hstep
      exact Nat.lt_succ_of_le (ih below (Nat.lt_succ_self below) hw)

/-- The level stays the same when the limit and the levels left grow together. -/
theorem recordOf_raise (k : Nat) {x : EStateM.Result DecodeFailure Session Record} :
    recordOf { types, objects, limit := limit + k } (limit + k - (room + k)) tag s = x ↔
      recordOf { types, objects, limit } (limit - room) tag s = x := by
  rw [Nat.add_sub_add_right]
  rfl

theorem within_ok_raise (k : Nat)
    (h : within { types, objects, limit } room tag s = .ok e t) :
    within { types, objects, limit := limit + k } (room + k) tag s = .ok e t := by
  induction room using Nat.strongRecOn generalizing tag s e t with
  | ind room ih =>
      obtain ⟨own, u, es, hown, hs, hl, rfl⟩ := within_eq_ok.mp h
      refine within_eq_ok.mpr ⟨own, u, es, (recordOf_raise k).mpr hown, hs.mono ?_, hl, rfl⟩
      intro e _ s t hstep
      obtain ⟨below, next, v, rfl, hi, hw⟩ := childStep_eq_ok.mp hstep
      have hnext := ih below (Nat.lt_succ_self below) hw
      exact childStep_eq_ok.mpr ⟨below + k, next, v, Nat.succ_add below k, hi, hnext⟩

theorem within_error_raise (k : Nat)
    (h : within { types, objects, limit } room tag s = .error f t)
    (hf : f.fault.isNestingTooDeep = false) :
    within { types, objects, limit := limit + k } (room + k) tag s = .error f t := by
  induction room using Nat.strongRecOn generalizing tag s f t with
  | ind room ih =>
      rcases within_eq_error.mp h with hown | ⟨own, u, es, v, g, hown, hs, hl, hg, rfl⟩
      · exact within_eq_error.mpr (.inl ((recordOf_raise k).mpr hown))
      · rcases childStep_eq_error.mp hg with ⟨_, rfl, _⟩ | ⟨below, rfl, hstop⟩
        · cases hf
        · refine within_eq_error.mpr (.inr ⟨own, u, es, v, g, (recordOf_raise k).mpr hown,
            hs.mono ?_, hl, ?_, rfl⟩)
          · intro e _ s t hstep
            obtain ⟨_, next, w, ⟨⟩, hi, hw⟩ := childStep_eq_ok.mp hstep
            have hnext := within_ok_raise k hw
            exact childStep_eq_ok.mpr ⟨below + k, next, w, Nat.succ_add below k, hi, hnext⟩
          · refine childStep_eq_error.mpr (.inr ⟨below + k, Nat.succ_add below k, ?_⟩)
            rcases hstop with hi | ⟨next, w, hi, hw⟩
            · exact .inl hi
            · exact .inr ⟨next, w, hi, ih below (Nat.lt_succ_self below) hw hf⟩

theorem within_ok_lower (k : Nat)
    (h : within { types, objects, limit := limit + k } (room + k) tag s = .ok e t)
    (he : e.height ≤ room) : within { types, objects, limit } room tag s = .ok e t := by
  induction room using Nat.strongRecOn generalizing tag s e t with
  | ind room ih =>
      obtain ⟨own, u, es, hown, hs, hl, rfl⟩ := within_eq_ok.mp h
      refine within_eq_ok.mpr ⟨own, u, es, (recordOf_raise k).mp hown, hs.mono ?_, hl, rfl⟩
      intro e hmem s t hstep
      rw [Entity.height, Entity.heightAll_le_iff] at he
      obtain ⟨below, rfl⟩ := Nat.exists_eq_add_one_of_ne_zero (Nat.ne_zero_of_lt (he e hmem))
      obtain ⟨above, next, v, habove, hi, hw⟩ := childStep_eq_ok.mp hstep
      obtain rfl : above = below + k := by omega
      have hnext := ih below (Nat.lt_succ_self below) hw (Nat.le_of_lt_succ (he e hmem))
      exact childStep_eq_ok.mpr ⟨below, next, v, rfl, hi, hnext⟩

end Limits

section AtLimit

variable {rules : DecodeRules} {own : Record} {t : Session}

theorem tooDeep_of_reaches {c d : Call} (h : Reaches rules c d) (hd : d.level = rules.limit)
    (hown : recordOf rules d.level d.tag d.start = .ok own t)
    (hsub : own.header.subCount ≠ 0) :
    ∃ kept, within rules (rules.limit - c.level) c.tag c.start =
      .error ⟨.nestingTooDeep rules.limit, kept⟩ t := by
  induction h using Relation.ReflTransGen.head_induction_on with
  | refl =>
      rw [hd] at hown ⊢
      rw [Nat.sub_self]
      have hpos : 0 < own.header.subCount.toNat :=
        Nat.pos_of_ne_zero fun h => hsub (UInt8.toNat_inj.mp h)
      exact ⟨_, within_eq_error.mpr (.inr ⟨own, t, [], t, _, hown, .nil t, hpos, rfl, rfl⟩)⟩
  | head hstep _ ih =>
      obtain ⟨kept, hw⟩ := ih
      cases hstep with
      | @child level tag next s u v parent hlt hparent hi =>
          obtain ⟨es, w, hs, hl, hlead⟩ := hi
          have hlevel : rules.limit - (rules.limit - level) = level :=
            Nat.sub_sub_self (Nat.le_of_lt hlt)
          rw [← hlevel] at hparent
          have hroom : rules.limit - level = rules.limit - (level + 1) + 1 := by omega
          have hstep := childStep_eq_error.mpr (.inr ⟨_, hroom, .inr ⟨next, v, hlead, hw⟩⟩)
          exact ⟨_, within_eq_error.mpr (.inr ⟨parent, u, es, w, _, hparent, hs, hl, hstep, rfl⟩)⟩

theorem exists_reaches_of_tooDeep (hk : rules.types.OfKinds) {level room : Nat} {tag : Tag}
    {s : Session} {f : DecodeFailure} (hr : level + room = rules.limit)
    (h : within rules room tag s = .error f t) (hf : f.fault.isNestingTooDeep = true) :
    f.fault = .nestingTooDeep rules.limit ∧ ∃ d own, Reaches rules ⟨level, tag, s⟩ d ∧
      d.level = rules.limit ∧ recordOf rules d.level d.tag d.start = .ok own t ∧
      own.header.subCount ≠ 0 := by
  induction room using Nat.strongRecOn generalizing level tag s f with
  | ind room ih =>
      have hlevel : rules.limit - room = level := by omega
      rcases within_eq_error.mp h with hown | ⟨own, u, es, v, g, hown, hs, hl, hg, rfl⟩
      · rw [recordOf_fault hk hown] at hf
        cases hf
      · rw [hlevel] at hown
        rcases childStep_eq_error.mp hg with ⟨rfl, rfl, rfl⟩ | ⟨below, rfl, hstop⟩
        · cases hs with
          | nil =>
              refine ⟨rfl, ⟨level, tag, s⟩, own, .refl, hr, hown, ?_⟩
              intro h₀
              rw [h₀] at hl
              cases hl
          | cons hstep _ => cases hstep
        · rcases hstop with hi | ⟨next, w, hi, hw⟩
          · rw [introducer_fault hi] at hf
            cases hf
          · have hbelow : level + 1 + below = rules.limit := by omega
            obtain ⟨hfault, d, inner, hd, hrest⟩ :=
              ih below (Nat.lt_succ_self below) hbelow hw hf
            have hroom : rules.limit - level = below + 1 := by omega
            have hnext : Introduces rules (rules.limit - level) own.version
                own.header.subCount.toNat u next w := hroom ▸ ⟨es, v, hs, hl, hi⟩
            have hlt : level < rules.limit := by omega
            exact ⟨hfault, d, inner, .head (.child hlt hown hnext) hd, hrest⟩

end AtLimit

theorem run_of_ok {d : Decoder Entity} {data : Bytes} {e : Entity} {t : Session}
    (h : d ⟨.ofBytes data, []⟩ = .ok e t) :
    d.run data = ⟨.ok e, t.cursor, t.visits.reverse⟩ := by
  rw [run, h]

theorem run_of_error {d : Decoder Entity} {data : Bytes} {f : DecodeFailure} {t : Session}
    (h : d ⟨.ofBytes data, []⟩ = .error f t) :
    d.run data = ⟨.error f, t.cursor, t.visits.reverse⟩ := by
  rw [run, h]

theorem run_visits (d : Decoder Entity) (data : Bytes) :
    (d.run data).visits = (stop (d ⟨.ofBytes data, []⟩)).visits.reverse := by
  cases h : d ⟨.ofBytes data, []⟩ with
  | ok e t => rw [run_of_ok h]; rfl
  | error f t => rw [run_of_error h]; rfl

section Runs

variable {types : TagRegistry RecordReader} {objects : ObjectMapping} {limit : Nat}
  {tag : Tag} {data : Bytes}

/-- A decoding that does not fail at the limit goes the same way under a higher one. -/
theorem run_raise {higher : Nat} (hh : limit ≤ higher)
    (h : ∀ n, ((ofTag { types, objects, limit } tag).run data).fault? ≠
      some (.nestingTooDeep n)) :
    (ofTag { types, objects, limit := higher } tag).run data =
      (ofTag { types, objects, limit } tag).run data := by
  obtain ⟨k, rfl⟩ := Nat.exists_eq_add_of_le hh
  cases hd : ofTag { types, objects, limit } tag ⟨.ofBytes data, []⟩ with
  | ok e t =>
      rw [run_of_ok hd]
      exact run_of_ok (within_ok_raise k hd)
  | error f t =>
      have hf : f.fault.isNestingTooDeep = false := by
        rw [run_of_error hd] at h
        cases hfault : f.fault with
        | nestingTooDeep n => exact absurd (congrArg some hfault) (h n)
        | _ => rfl
      rw [run_of_error hd]
      exact run_of_error (within_error_raise k hd hf)

/-- A tree is decoded under every limit that its height keeps. -/
theorem run_of_height_le {other : Nat} {e : Entity}
    (h : ((ofTag { types, objects, limit := other } tag).run data).result = .ok e)
    (he : e.height ≤ limit) :
    (ofTag { types, objects, limit } tag).run data =
      (ofTag { types, objects, limit := other } tag).run data := by
  obtain ⟨t, ht⟩ := run_eq_ok h
  rcases Nat.le_total limit other with hl | hl
  · obtain ⟨k, rfl⟩ := Nat.exists_eq_add_of_le hl
    rw [run_of_ok ht]
    exact run_of_ok (within_ok_lower k ht he)
  · obtain ⟨k, rfl⟩ := Nat.exists_eq_add_of_le hl
    rw [run_of_ok ht]
    exact run_of_ok (within_ok_raise k ht)

theorem run_tooDeep_iff (hk : types.OfKinds) {n : Nat} {cursor : Cursor} :
    ((ofTag { types, objects, limit } tag).run data).fault? = some (.nestingTooDeep n) ∧
      ((ofTag { types, objects, limit } tag).run data).cursor = cursor ↔
    n = limit ∧ ∃ call own after, Reaches { types, objects, limit } (.first tag data) call ∧
      call.level = limit ∧
      recordOf { types, objects, limit } call.level call.tag call.start = .ok own after ∧
      own.header.subCount ≠ 0 ∧ after.cursor = cursor := by
  constructor
  · intro h
    obtain ⟨hfault, rfl⟩ := h
    cases hd : ofTag { types, objects, limit } tag ⟨.ofBytes data, []⟩ with
    | ok e t =>
        rw [run_of_ok hd] at hfault
        cases hfault
    | error f t =>
        rw [run_of_error hd] at hfault ⊢
        have hf : f.fault = .nestingTooDeep n := Option.some.inj hfault
        obtain ⟨hlimit, call, own, hc, hlevel, hown, hsub⟩ :=
          exists_reaches_of_tooDeep hk (Nat.zero_add limit) hd (by rw [hf]; rfl)
        rw [hf] at hlimit
        exact ⟨Fault.nestingTooDeep.inj hlimit, call, own, t, hc, hlevel, hown, hsub, rfl⟩
  · intro h
    obtain ⟨rfl, call, own, after, hc, hlevel, hown, hsub, rfl⟩ := h
    obtain ⟨kept, hd⟩ := tooDeep_of_reaches hc hlevel hown hsub
    change ofTag { types, objects, limit := n } tag ⟨.ofBytes data, []⟩ = _ at hd
    rw [run_of_error hd]
    exact ⟨rfl, rfl⟩

theorem mem_run_visits {v : Visit} :
    v ∈ ((ofTag { types, objects, limit } tag).run data).visits ↔
      Enters { types, objects, limit } (.first tag data) v := by
  rw [run_visits, List.mem_reverse, ofTag, mem_within_visits (Nat.zero_add limit)]
  simp [Call.first]

theorem run_map_level {e : Entity}
    (h : ((ofTag { types, objects, limit } tag).run data).result = .ok e) :
    ((ofTag { types, objects, limit } tag).run data).visits.map Visit.level =
      (e.preorder 0).map Prod.fst := by
  obtain ⟨t, ht⟩ := run_eq_ok h
  have hlevels := map_level_of_within (Nat.zero_add limit) ht
  rw [run_of_ok ht, List.map_reverse, hlevels]
  simp [levelsAll, Entity.preorderAll]

end Runs

/-- A limit adds the failure at the limit and nothing else. That failure arises when
the record of an entity at the limit has been read and asks for children, and stands
right behind that record. No decoder is entered at a level above the limit, and the
levels at which decoders are entered are those of the entities in the tree. -/
theorem limit_adds_only_nestingTooDeep {types : TagRegistry RecordReader} (hk : types.OfKinds)
    (objects : ObjectMapping) (limit : Nat) (tag : Tag) (data : Bytes) :
    let rules : DecodeRules := { types, objects, limit }
    let outcome := (ofTag rules tag).run data
    (∀ higher, limit ≤ higher → (∀ n, outcome.fault? ≠ some (.nestingTooDeep n)) →
      (ofTag { types, objects, limit := higher } tag).run data = outcome) ∧
    (∀ e, outcome.result = .ok e → e.height ≤ limit) ∧
    (∀ other e, ((ofTag { types, objects, limit := other } tag).run data).result = .ok e →
      e.height ≤ limit →
      outcome = (ofTag { types, objects, limit := other } tag).run data) ∧
    (∀ n cursor, outcome.fault? = some (.nestingTooDeep n) ∧ outcome.cursor = cursor ↔
      n = limit ∧ ∃ call own after, Reaches rules (.first tag data) call ∧
        call.level = limit ∧ recordOf rules call.level call.tag call.start = .ok own after ∧
        own.header.subCount ≠ 0 ∧ after.cursor = cursor) ∧
    (∀ visit ∈ outcome.visits, visit.level ≤ limit) ∧
    (∀ visit, visit ∈ outcome.visits ↔ Enters rules (.first tag data) visit) ∧
    ∀ e, outcome.result = .ok e →
      outcome.visits.map Visit.level = (e.preorder 0).map Prod.fst := by
  intro rules outcome
  refine ⟨fun _ => run_raise, ?_, fun _ _ => run_of_height_le, fun _ _ => run_tooDeep_iff hk,
    ?_, fun _ => mem_run_visits, fun _ => run_map_level⟩
  · intro e h
    obtain ⟨t, ht⟩ := run_eq_ok h
    exact height_le_of_within ht
  · intro visit hv
    obtain ⟨call, hc, _, rfl⟩ := mem_run_visits.mp hv
    exact hc.level_le (Nat.zero_le limit)

open Sample in
/-- The vest and its blade need one level; without one, decoding stops behind the vest. -/
theorem limit_adds_only_nestingTooDeep_vestCapture :
    TagRegistry.standard.OfKinds ∧
    (∀ higher, 1 ≤ higher →
      (ofTag { objects, limit := higher } TagRegistry.armorTag).run vestCapture =
        (ofTag { objects, limit := 1 } TagRegistry.armorTag).run vestCapture) ∧
    ((ofTag { objects, limit := 1 } TagRegistry.armorTag).run vestCapture).visits.map
      Visit.level = [0, 1] ∧
    ((ofTag { objects, limit := 0 } TagRegistry.armorTag).run vestCapture).fault? =
      some (.nestingTooDeep 0) ∧
    ∃ call own after, Reaches { objects, limit := 0 } (.first TagRegistry.armorTag vestCapture)
        call ∧ call.level = 0 ∧
      recordOf { objects, limit := 0 } call.level call.tag call.start = .ok own after ∧
      own.header.subCount ≠ 0 ∧ after.cursor = ⟨69, vestCapture.drop 69⟩ := by
  have hone : ((ofTag { objects, limit := 1 } TagRegistry.armorTag).run vestCapture).result =
      .ok (.node vest [.node blade []]) := by
    decide +kernel
  have hzero : ((ofTag { objects, limit := 0 } TagRegistry.armorTag).run vestCapture).fault? =
        some (.nestingTooDeep 0) ∧
      ((ofTag { objects, limit := 0 } TagRegistry.armorTag).run vestCapture).cursor =
        ⟨69, vestCapture.drop 69⟩ := by
    decide +kernel
  have hproper : ∀ n, ((ofTag { objects, limit := 1 } TagRegistry.armorTag).run
      vestCapture).fault? ≠ some (.nestingTooDeep n) := by
    intro n h
    rw [DecodeOutcome.fault?, hone] at h
    cases h
  have hk := TagRegistry.standard_ofKinds
  obtain ⟨hraise, _, _, _, _, _, hlevels⟩ :=
    limit_adds_only_nestingTooDeep hk objects 1 TagRegistry.armorTag vestCapture
  obtain ⟨_, _, _, hdeep, _⟩ :=
    limit_adds_only_nestingTooDeep hk objects 0 TagRegistry.armorTag vestCapture
  exact ⟨hk, fun higher hh => hraise higher hh hproper, hlevels _ hone, hzero.1,
    ((hdeep 0 _).mp hzero).2⟩

end Decoder

end WireCapture
