import WireCapture.Proofs.EntityStreaming

/-!
# How a tree is decoded

The children of an entity are decoded by one step taken again and again: the
introducer of a nested entity and the entity itself. `Steps` follows the steps
that succeed. An entity is decoded exactly when its record is read and all steps
succeed; otherwise the failure is that of the record, which keeps nothing, or
that of the first failing step, in place of which the record and the children
before it are kept.
-/
namespace WireCapture

namespace Decoder

/-- A nested entity after its introducer. -/
def introduced (objects : ObjectMapping) (version : UInt16)
    (decode : Tag → Decoder Entity) : Decoder Entity := do
  let tag ← lift (introducer objects version)
  decode tag

/-- The steps that succeed one after the other, and their entities. -/
inductive Steps (step : Decoder Entity) : Session → List Entity → Session → Prop
  | nil (s : Session) : Steps step s [] s
  | cons {s t u : Session} {e : Entity} {es : List Entity} :
      step s = .ok e t → Steps step t es u → Steps step s (e :: es) u

/-- What is done for each child with `room` levels left below the parent. -/
def childStep (rules : DecodeRules) (room : Nat) (version : UInt16) : Decoder Entity :=
  match nested rules room with
  | none => throw ⟨.nestingTooDeep rules.limit, none⟩
  | some decode => introduced rules.objects version decode

/-- The record of an entity of type `tag`. -/
def recordOf (rules : DecodeRules) (level : Nat) (tag : Tag) : Decoder Record := do
  let read ← ofExcept (rules.types.lookup tag)
  enter tag level
  lift (read level)

variable {α : Type}

theorem lift_eq_ok {r : Reader α} {s t : Session} {a : α} :
    lift r s = .ok a t ↔ r s.cursor = .ok a t.cursor ∧ t.visits = s.visits := by
  obtain ⟨c, visits⟩ := t
  cases h : r s.cursor <;> simp [lift, h, and_assoc, eq_comm]

theorem lift_eq_error {r : Reader α} {s t : Session} {f : DecodeFailure} :
    lift r s = .error f t ↔
      r s.cursor = .error f.fault t.cursor ∧ f.kept = none ∧ t.visits = s.visits := by
  obtain ⟨c, visits⟩ := t
  obtain ⟨fault, kept⟩ := f
  cases h : r s.cursor with
  | ok a c' => simp [lift, h]
  | error e c' =>
      rw [lift, h]
      constructor
      · intro h
        cases h
        exact ⟨rfl, rfl, rfl⟩
      · intro h
        obtain ⟨⟨⟩, rfl, rfl⟩ := h
        rfl

theorem keeping_eq_ok {e : Entity} {d : Decoder α} {s t : Session} {a : α} :
    keeping e d s = .ok a t ↔ d s = .ok a t := by
  cases h : d s <;> simp [keeping, h]

theorem keeping_eq_error {e : Entity} {d : Decoder α} {s t : Session} {f : DecodeFailure} :
    keeping e d s = .error f t ↔ ∃ g, d s = .error g t ∧ f = ⟨g.fault, some e⟩ := by
  cases h : d s with
  | ok a u => simp [keeping, h]
  | error g u =>
      rw [keeping, h]
      constructor
      · intro h
        cases h
        exact ⟨g, rfl, rfl⟩
      · intro h
        obtain ⟨_, ⟨⟩, rfl⟩ := h
        rfl

theorem children_succ (objects : ObjectMapping) (own : Record) (decode : Tag → Decoder Entity)
    (n : Nat) (done : List Entity) :
    children objects own decode (n + 1) done =
      keeping (.node own done.reverse) (introduced objects own.version decode) >>=
        fun next => children objects own decode n (next :: done) := rfl

theorem children_eq_ok {objects : ObjectMapping} {own : Record}
    {decode : Tag → Decoder Entity} {n : Nat} {done : List Entity} {s t : Session}
    {e : Entity} : children objects own decode n done s = .ok e t ↔
      ∃ es, Steps (introduced objects own.version decode) s es t ∧ es.length = n ∧
        e = .node own (done.reverse ++ es) := by
  induction n generalizing done s with
  | zero =>
      constructor
      · intro h
        cases h
        exact ⟨[], .nil _, rfl, by rw [List.append_nil]⟩
      · intro h
        obtain ⟨es, hs, hl, rfl⟩ := h
        cases hs with
        | nil => rw [List.append_nil]; rfl
        | cons _ _ => cases hl
  | succ n ih =>
      rw [children_succ, bind_eq_ok]
      constructor
      · intro h
        obtain ⟨next, u, hk, hc⟩ := h
        obtain ⟨es, hs, hl, rfl⟩ := ih.mp hc
        refine ⟨next :: es, .cons (keeping_eq_ok.mp hk) hs, congrArg (· + 1) hl, ?_⟩
        rw [List.reverse_cons, List.append_assoc, List.singleton_append]
      · intro h
        obtain ⟨es, hs, hl, rfl⟩ := h
        cases hs with
        | nil => cases hl
        | cons hstep hs =>
            refine ⟨_, _, keeping_eq_ok.mpr hstep, ih.mpr ⟨_, hs, Nat.succ.inj hl, ?_⟩⟩
            rw [List.reverse_cons, List.append_assoc, List.singleton_append]

theorem children_eq_error {objects : ObjectMapping} {own : Record}
    {decode : Tag → Decoder Entity} {n : Nat} {done : List Entity} {s t : Session}
    {f : DecodeFailure} : children objects own decode n done s = .error f t ↔
      ∃ es u g, Steps (introduced objects own.version decode) s es u ∧ es.length < n ∧
        introduced objects own.version decode u = .error g t ∧
        f = ⟨g.fault, some (.node own (done.reverse ++ es))⟩ := by
  induction n generalizing done s with
  | zero =>
      constructor
      · intro h
        cases h
      · intro h
        obtain ⟨_, _, _, _, hl, _⟩ := h
        cases hl
  | succ n ih =>
      rw [children_succ, bind_eq_error]
      constructor
      · intro h
        rcases h with hk | ⟨next, u, hk, hc⟩
        · obtain ⟨g, hg, rfl⟩ := keeping_eq_error.mp hk
          exact ⟨[], s, g, .nil s, Nat.succ_pos n, hg, by rw [List.append_nil]⟩
        · obtain ⟨es, v, g, hs, hl, hg, rfl⟩ := ih.mp hc
          refine ⟨next :: es, v, g, .cons (keeping_eq_ok.mp hk) hs, Nat.succ_lt_succ hl, hg, ?_⟩
          rw [List.reverse_cons, List.append_assoc, List.singleton_append]
      · intro h
        obtain ⟨es, u, g, hs, hl, hg, rfl⟩ := h
        cases hs with
        | nil =>
            refine .inl (keeping_eq_error.mpr ⟨g, hg, ?_⟩)
            rw [List.append_nil]
        | cons hstep hs =>
            refine .inr ⟨_, _, keeping_eq_ok.mpr hstep,
              ih.mpr ⟨_, u, g, hs, Nat.lt_of_succ_lt_succ hl, hg, ?_⟩⟩
            rw [List.reverse_cons, List.append_assoc, List.singleton_append]

theorem below_eq_ok {rules : DecodeRules} {room : Nat} {own : Record} {s t : Session}
    {e : Entity} : below rules (nested rules room) own s = .ok e t ↔
      ∃ es, Steps (childStep rules room own.version) s es t ∧
        es.length = own.header.subCount.toNat ∧ e = .node own es := by
  unfold below
  split
  · rename_i h₀
    rw [h₀]
    constructor
    · intro h
      cases h
      exact ⟨[], .nil s, rfl, rfl⟩
    · intro h
      obtain ⟨es, hs, hl, rfl⟩ := h
      cases hs with
      | nil => rfl
      | cons _ _ => cases hl
  · rename_i h₀
    cases room with
    | zero =>
        constructor
        · intro h
          cases h
        · intro h
          obtain ⟨es, hs, hl, rfl⟩ := h
          cases hs with
          | nil => exact absurd (UInt8.toNat_inj.mp hl.symm) h₀
          | cons hstep _ => cases hstep
    | succ room => exact children_eq_ok

theorem below_eq_error {rules : DecodeRules} {room : Nat} {own : Record} {s t : Session}
    {f : DecodeFailure} : below rules (nested rules room) own s = .error f t ↔
      ∃ es u g, Steps (childStep rules room own.version) s es u ∧
        es.length < own.header.subCount.toNat ∧
        childStep rules room own.version u = .error g t ∧
        f = ⟨g.fault, some (.node own es)⟩ := by
  unfold below
  split
  · rename_i h₀
    rw [h₀]
    constructor
    · intro h
      cases h
    · intro h
      obtain ⟨_, _, _, _, hl, _⟩ := h
      cases hl
  · rename_i h₀
    cases room with
    | zero =>
        constructor
        · intro h
          cases h
          refine ⟨[], s, _, .nil s, Nat.pos_of_ne_zero ?_, rfl, rfl⟩
          exact fun h => h₀ (UInt8.toNat_inj.mp h)
        · intro h
          obtain ⟨es, u, g, hs, hl, hg, rfl⟩ := h
          cases hs with
          | nil => cases hg; rfl
          | cons hstep _ => cases hstep
    | succ room => exact children_eq_error

theorem within_eq (rules : DecodeRules) (room : Nat) (tag : Tag) :
    within rules room tag =
      recordOf rules (rules.limit - room) tag >>= below rules (nested rules room) := by
  cases room <;> exact (bind_assoc ..).symm

theorem within_eq_ok {rules : DecodeRules} {room : Nat} {tag : Tag} {s t : Session}
    {e : Entity} : within rules room tag s = .ok e t ↔
      ∃ own u es, recordOf rules (rules.limit - room) tag s = .ok own u ∧
        Steps (childStep rules room own.version) u es t ∧
        es.length = own.header.subCount.toNat ∧ e = .node own es := by
  rw [within_eq, bind_eq_ok]
  constructor
  · intro h
    obtain ⟨own, u, hr, hb⟩ := h
    obtain ⟨es, hs, hl, he⟩ := below_eq_ok.mp hb
    exact ⟨own, u, es, hr, hs, hl, he⟩
  · intro h
    obtain ⟨own, u, es, hr, hs, hl, he⟩ := h
    exact ⟨own, u, hr, below_eq_ok.mpr ⟨es, hs, hl, he⟩⟩

theorem within_eq_error {rules : DecodeRules} {room : Nat} {tag : Tag} {s t : Session}
    {f : DecodeFailure} : within rules room tag s = .error f t ↔
      recordOf rules (rules.limit - room) tag s = .error f t ∨
      ∃ own u es v g, recordOf rules (rules.limit - room) tag s = .ok own u ∧
        Steps (childStep rules room own.version) u es v ∧
        es.length < own.header.subCount.toNat ∧
        childStep rules room own.version v = .error g t ∧
        f = ⟨g.fault, some (.node own es)⟩ := by
  rw [within_eq, bind_eq_error]
  constructor
  · intro h
    rcases h with hr | ⟨own, u, hr, hb⟩
    · exact .inl hr
    · obtain ⟨es, v, g, hs, hl, hg, hf⟩ := below_eq_error.mp hb
      exact .inr ⟨own, u, es, v, g, hr, hs, hl, hg, hf⟩
  · intro h
    rcases h with hr | ⟨own, u, es, v, g, hr, hs, hl, hg, hf⟩
    · exact .inl hr
    · exact .inr ⟨own, u, hr, below_eq_error.mpr ⟨es, v, g, hs, hl, hg, hf⟩⟩

theorem childStep_eq_ok {rules : DecodeRules} {room : Nat} {version : UInt16}
    {s t : Session} {e : Entity} : childStep rules room version s = .ok e t ↔
      ∃ below tag u, room = below + 1 ∧ lift (introducer rules.objects version) s = .ok tag u ∧
        within rules below tag u = .ok e t := by
  cases room with
  | zero =>
      constructor
      · intro h
        cases h
      · intro h
        obtain ⟨_, _, _, h, _⟩ := h
        cases h
  | succ room =>
      change introduced rules.objects version (within rules room) s = _ ↔ _
      rw [introduced, bind_eq_ok]
      constructor
      · intro h
        obtain ⟨tag, u, hi, hw⟩ := h
        exact ⟨room, tag, u, rfl, hi, hw⟩
      · intro h
        obtain ⟨_, tag, u, ⟨⟩, hi, hw⟩ := h
        exact ⟨tag, u, hi, hw⟩

theorem recordOf_eq_ok {rules : DecodeRules} {level : Nat} {tag : Tag} {s t : Session}
    {own : Record} : recordOf rules level tag s = .ok own t ↔
      ∃ read, rules.types.lookup tag = .ok read ∧ read level s.cursor = .ok own t.cursor ∧
        t.visits = ⟨tag, s.cursor.pos, level⟩ :: s.visits := by
  unfold recordOf
  cases hl : rules.types.lookup tag with
  | error e =>
      constructor
      · intro h
        cases h
      · intro h
        obtain ⟨_, ⟨⟩, _⟩ := h
  | ok read =>
      change lift (read level) ⟨s.cursor, ⟨tag, s.cursor.pos, level⟩ :: s.visits⟩ = _ ↔ _
      rw [lift_eq_ok]
      constructor
      · exact fun h => ⟨read, rfl, h⟩
      · intro h
        obtain ⟨_, ⟨⟩, h⟩ := h
        exact h

theorem recordOf_keeps_nothing {rules : DecodeRules} {level : Nat} {tag : Tag}
    {s t : Session} {f : DecodeFailure} (h : recordOf rules level tag s = .error f t) :
    f.kept = none := by
  unfold recordOf at h
  cases hl : rules.types.lookup tag with
  | error e =>
      rw [hl] at h
      cases h
      rfl
  | ok read =>
      rw [hl] at h
      change lift (read level) ⟨s.cursor, ⟨tag, s.cursor.pos, level⟩ :: s.visits⟩ = _ at h
      exact (lift_eq_error.mp h).2.1

section Reads

variable {rules : DecodeRules} {room : Nat} {tag : Tag} {front bs : Bytes} {own : Record}
  {e : Entity}

theorem reads_recordOf {level : Nat} {read : RecordReader}
    (hl : rules.types.lookup tag = .ok read) (hown : Reads (read level) front own) :
    Reads (recordOf rules level tag) front own := by
  unfold recordOf
  rw [hl]
  change Reads (enter tag level >>= fun _ => lift (read level)) _ _
  exact (enter_reads tag level).bind (lift_settles hown)

theorem reads_childStep {version : UInt16} {lead : Bytes}
    (hlead : Reads (introducer rules.objects version) lead tag)
    (h : Reads (within rules room tag) bs e) :
    Reads (childStep rules (room + 1) version) (lead ++ bs) e :=
  (lift_settles hlead).bind h

/-- Parts that a step reads can be read by it one after the other. -/
theorem steps_of_reads {step : Decoder Entity} {parts : List (Bytes × Entity)}
    (h : ∀ p ∈ parts, Reads step p.1 p.2) :
    ∃ note : Nat → List Visit → List Visit, ∀ pos tail log,
      Steps step ⟨⟨pos, parts.flatMap Prod.fst ++ tail⟩, log⟩ (parts.map Prod.snd)
        ⟨⟨pos + (parts.flatMap Prod.fst).length, tail⟩, note pos log⟩ := by
  induction parts with
  | nil => exact ⟨fun _ log => log, fun pos tail log => .nil _⟩
  | cons p parts ih =>
      obtain ⟨note₁, hstep⟩ := h p List.mem_cons_self
      obtain ⟨note₂, hsteps⟩ := ih fun q hq => h q (List.mem_cons_of_mem _ hq)
      refine ⟨fun pos log => note₂ (pos + p.1.length) (note₁ pos log), fun pos tail log => ?_⟩
      have hrest := hsteps (pos + p.1.length) tail (note₁ pos log)
      rw [List.flatMap_cons, List.map_cons, List.append_assoc, List.length_append,
        ← Nat.add_assoc]
      exact .cons (hstep pos (parts.flatMap Prod.fst ++ tail) log) hrest

/-- An entity is read from its record and the parts of its children. -/
theorem reads_within {read : RecordReader} {parts : List (Bytes × Entity)}
    (hl : rules.types.lookup tag = .ok read)
    (hown : Reads (read (rules.limit - room)) front own)
    (hcount : parts.length = own.header.subCount.toNat)
    (hparts : ∀ p ∈ parts, Reads (childStep rules room own.version) p.1 p.2) :
    Reads (within rules room tag) (front ++ parts.flatMap Prod.fst)
      (.node own (parts.map Prod.snd)) := by
  obtain ⟨note, hsteps⟩ := steps_of_reads hparts
  have hl' : (parts.map Prod.snd).length = own.header.subCount.toNat := by
    rw [List.length_map, hcount]
  rw [within_eq]
  apply (reads_recordOf hl hown).bind
  exact ⟨note, fun pos tail log => below_eq_ok.mpr ⟨_, hsteps pos tail log, hl', rfl⟩⟩

end Reads

theorem standard_lookup {tag : Tag} {read : RecordReader}
    (h : TagRegistry.standard.lookup tag = .ok read) : ∃ kind, read = TagRegistry.ofKind kind :=
  TagRegistry.standard_ofKinds _ (TagRegistry.mem_of_lookup h)

theorem run_eq_ok {d : Decoder Entity} {data : Bytes} {e : Entity}
    (h : (d.run data).result = .ok e) : ∃ t, d ⟨.ofBytes data, []⟩ = .ok e t := by
  unfold run at h
  cases hd : d ⟨.ofBytes data, []⟩ with
  | ok e' t =>
      rw [hd] at h
      cases h
      exact ⟨t, rfl⟩
  | error g t =>
      rw [hd] at h
      cases h

theorem run_eq_error {d : Decoder Entity} {data : Bytes} {f : DecodeFailure}
    (h : (d.run data).result = .error f) : ∃ t, d ⟨.ofBytes data, []⟩ = .error f t := by
  unfold run at h
  cases hd : d ⟨.ofBytes data, []⟩ with
  | ok e t =>
      rw [hd] at h
      cases h
  | error g t =>
      rw [hd] at h
      cases h
      exact ⟨t, rfl⟩

end Decoder

end WireCapture
