import Mathlib.Logic.Relation
import WireCapture.Proofs.EntityShape

/-!
# Calls for nested entities

Decoding an entity calls for the decoding of the entities in it, one level further
down, as long as the levels last. `Nests` relates a call to the calls for the
children of its entity, and counts the levels upwards from the first call, whatever
the decoder does with the limit. The visits of a decoding are those of the calls it
reaches, and a decoded tree lists their levels.
-/
namespace WireCapture.Decoder

/-- A decoder is called for the entity of a type that starts at a session. -/
structure Call where
  level : Nat
  tag : Tag
  start : Session
  deriving DecidableEq

def Call.visit (c : Call) : Visit := ⟨c.tag, c.start.cursor.pos, c.level⟩

/-- The first call for a capture. -/
def Call.first (tag : Tag) (data : Bytes) : Call := ⟨0, tag, ⟨.ofBytes data, []⟩⟩

/-- Behind an introducer, one of the next `n` nested entities starts. -/
def Introduces (rules : DecodeRules) (room : Nat) (version : UInt16) (n : Nat)
    (s : Session) (tag : Tag) (t : Session) : Prop :=
  ∃ es u, Steps (childStep rules room version) s es u ∧ es.length < n ∧
    lift (introducer rules.objects version) u = .ok tag t

/-- The second call is for a child in the entity of the first. -/
inductive Nests (rules : DecodeRules) : Call → Call → Prop
  | child {level : Nat} {tag next : Tag} {s t u : Session} {own : Record} :
      level < rules.limit → recordOf rules level tag s = .ok own t →
      Introduces rules (rules.limit - level) own.version own.header.subCount.toNat t next u →
      Nests rules ⟨level, tag, s⟩ ⟨level + 1, next, u⟩

/-- Some decoding for the first call gets to the second. -/
abbrev Reaches (rules : DecodeRules) : Call → Call → Prop := Relation.ReflTransGen (Nests rules)

theorem Reaches.level_le {rules : DecodeRules} {c d : Call} (h : Reaches rules c d)
    (hc : c.level ≤ rules.limit) : d.level ≤ rules.limit := by
  induction h with
  | refl => exact hc
  | tail _ hstep _ =>
      cases hstep with
      | child hlt _ _ => exact hlt

theorem reaches_iff {rules : DecodeRules} {level : Nat} {tag : Tag} {s : Session} {d : Call} :
    Reaches rules ⟨level, tag, s⟩ d ↔ d = ⟨level, tag, s⟩ ∨
      ∃ own t next u, level < rules.limit ∧ recordOf rules level tag s = .ok own t ∧
        Introduces rules (rules.limit - level) own.version own.header.subCount.toNat t next u ∧
        Reaches rules ⟨level + 1, next, u⟩ d := by
  rw [Reaches, Relation.ReflTransGen.cases_head_iff]
  refine or_congr eq_comm ?_
  constructor
  · intro h
    obtain ⟨_, ⟨hlt, hr, hi⟩, hd⟩ := h
    exact ⟨_, _, _, _, hlt, hr, hi, hd⟩
  · intro h
    obtain ⟨own, t, next, u, hlt, hr, hi, hd⟩ := h
    exact ⟨_, .child hlt hr hi, hd⟩

section Introduced

variable {rules : DecodeRules} {room : Nat} {version : UInt16} {n : Nat} {s t : Session}
  {tag : Tag}

theorem not_introduces_zero : ¬ Introduces rules room version 0 s tag t := by
  intro h
  obtain ⟨_, _, _, hl, _⟩ := h
  cases hl

theorem introduces_succ : Introduces rules room version (n + 1) s tag t ↔
    lift (introducer rules.objects version) s = .ok tag t ∨
      ∃ e u, childStep rules room version s = .ok e u ∧
        Introduces rules room version n u tag t := by
  constructor
  · intro h
    obtain ⟨es, u, hs, hl, hi⟩ := h
    cases hs with
    | nil => exact .inl hi
    | cons hstep hs => exact .inr ⟨_, _, hstep, _, u, hs, Nat.lt_of_succ_lt_succ hl, hi⟩
  · intro h
    rcases h with hi | ⟨e, u, hstep, es, v, hs, hl, hi⟩
    · exact ⟨[], s, .nil s, Nat.succ_pos n, hi⟩
    · exact ⟨e :: es, v, .cons hstep hs, Nat.succ_lt_succ hl, hi⟩

end Introduced

/-- The state in which a computation ends. -/
def stop {ε σ α : Type} : EStateM.Result ε σ α → σ
  | .ok _ s => s
  | .error _ s => s

/-- An entity is entered when its type has a decoder, and that is all that is noted. -/
def Enters (rules : DecodeRules) (c : Call) (v : Visit) : Prop :=
  ∃ d, Reaches rules c d ∧ rules.types.contains d.tag = true ∧ d.visit = v

section Visits

variable {rules : DecodeRules} {level room : Nat} {tag : Tag} {s t : Session} {v : Visit}

theorem enters_iff : Enters rules ⟨level, tag, s⟩ v ↔
    rules.types.contains tag = true ∧ v = ⟨tag, s.cursor.pos, level⟩ ∨
      ∃ own t, level < rules.limit ∧ recordOf rules level tag s = .ok own t ∧
        ∃ next u, Introduces rules (rules.limit - level) own.version
            own.header.subCount.toNat t next u ∧ Enters rules ⟨level + 1, next, u⟩ v := by
  unfold Enters
  constructor
  · intro h
    obtain ⟨d, hd, hc, rfl⟩ := h
    rcases reaches_iff.mp hd with rfl | ⟨own, t, next, u, hlt, hr, hi, hd⟩
    · exact .inl ⟨hc, rfl⟩
    · exact .inr ⟨own, t, hlt, hr, next, u, hi, d, hd, hc, rfl⟩
  · intro h
    rcases h with ⟨hc, rfl⟩ | ⟨own, t, hlt, hr, next, u, hi, d, hd, hc, rfl⟩
    · exact ⟨_, reaches_iff.mpr (.inl rfl), hc, rfl⟩
    · exact ⟨d, reaches_iff.mpr (.inr ⟨own, t, next, u, hlt, hr, hi, hd⟩), hc, rfl⟩

theorem lift_visits {α : Type} (r : Reader α) (s : Session) :
    (stop (lift r s)).visits = s.visits := by
  cases h : lift r s with
  | ok a t => exact (lift_eq_ok.mp h).2
  | error f t => exact (lift_eq_error.mp h).2.2

theorem recordOf_visits (rules : DecodeRules) (level : Nat) (tag : Tag) (s : Session) :
    (stop (recordOf rules level tag s)).visits =
      if rules.types.contains tag then ⟨tag, s.cursor.pos, level⟩ :: s.visits
      else s.visits := by
  unfold recordOf TagRegistry.contains TagRegistry.lookup
  cases rules.types.find? tag with
  | none => rfl
  | some read => exact lift_visits (read level) ⟨s.cursor, ⟨tag, s.cursor.pos, level⟩ :: s.visits⟩

theorem mem_recordOf_visits : v ∈ (stop (recordOf rules level tag s)).visits ↔
    v ∈ s.visits ∨ rules.types.contains tag = true ∧ v = ⟨tag, s.cursor.pos, level⟩ := by
  rw [recordOf_visits]
  split <;> simp_all [or_comm]

theorem childStep_succ (rules : DecodeRules) (room : Nat) (version : UInt16) :
    childStep rules (room + 1) version =
      introduced rules.objects version (within rules room) := rfl

/-- One step adds the visits of the call for its child. -/
theorem mem_childStep_visits {version : UInt16}
    (h : ∀ next u, v ∈ (stop (within rules room next u)).visits ↔
      v ∈ u.visits ∨ Enters rules ⟨level, next, u⟩ v) :
    v ∈ (stop (childStep rules (room + 1) version s)).visits ↔ v ∈ s.visits ∨
      ∃ next u, lift (introducer rules.objects version) s = .ok next u ∧
        Enters rules ⟨level, next, u⟩ v := by
  have hv := lift_visits (introducer rules.objects version) s
  cases hi : lift (introducer rules.objects version) s with
  | error f t =>
      have hs : childStep rules (room + 1) version s = .error f t := bind_of_error hi
      rw [hi] at hv
      simp only [hs, stop] at hv ⊢
      simp [hv]
  | ok next t =>
      have hs : childStep rules (room + 1) version s = within rules room next t := bind_of_ok hi
      rw [hi] at hv
      simp only [stop] at hv
      rw [hs, h, hv]
      refine or_congr_right ⟨fun he => ⟨next, t, rfl, he⟩, ?_⟩
      intro he
      obtain ⟨_, _, ⟨⟩, he⟩ := he
      exact he

/-- The children add the visits of the calls for them. -/
theorem mem_children_visits {own : Record} {n : Nat} {done : List Entity}
    (h : ∀ next u, v ∈ (stop (within rules room next u)).visits ↔
      v ∈ u.visits ∨ Enters rules ⟨level, next, u⟩ v) :
    v ∈ (stop (children rules.objects own (within rules room) n done s)).visits ↔
      v ∈ s.visits ∨ ∃ next u, Introduces rules (room + 1) own.version n s next u ∧
        Enters rules ⟨level, next, u⟩ v := by
  induction n generalizing done s with
  | zero => simp [children, not_introduces_zero, stop, pure, EStateM.pure]
  | succ n ih =>
      have hstep : v ∈ (stop (childStep rules (room + 1) own.version s)).visits ↔ _ :=
        mem_childStep_visits h
      rw [children_succ, ← childStep_succ]
      cases hs : childStep rules (room + 1) own.version s with
      | error f t =>
          rw [bind_of_error (keeping_eq_error.mpr ⟨f, hs, rfl⟩)]
          rw [hs] at hstep
          simp only [introduces_succ, hs, reduceCtorEq, false_and, exists_false, or_false]
          exact hstep
      | ok e t =>
          rw [bind_of_ok (keeping_eq_ok.mpr hs), ih]
          rw [hs] at hstep
          simp only [introduces_succ, hs, EStateM.Result.ok.injEq, and_assoc,
            exists_and_left, exists_eq_left', or_and_right, exists_or]
          rw [← or_assoc]
          exact or_congr_left hstep

theorem mem_below_visits {own : Record} (hr : level + room = rules.limit)
    (h : ∀ below next u, room = below + 1 →
      (v ∈ (stop (within rules below next u)).visits ↔
        v ∈ u.visits ∨ Enters rules ⟨level + 1, next, u⟩ v)) :
    v ∈ (stop (below rules (nested rules room) own s)).visits ↔
      v ∈ s.visits ∨ level < rules.limit ∧ ∃ next u,
        Introduces rules room own.version own.header.subCount.toNat s next u ∧
          Enters rules ⟨level + 1, next, u⟩ v := by
  unfold below
  split
  · rename_i h₀
    rw [h₀]
    simp [not_introduces_zero, stop, pure, EStateM.pure]
  · cases room with
    | zero =>
        have hlevel : ¬ level < rules.limit := by omega
        simp only [hlevel, false_and, or_false]
        rfl
    | succ room =>
        have hlevel : level < rules.limit := by omega
        simp only [hlevel, true_and]
        exact mem_children_visits fun next u => h room next u rfl

theorem mem_within_visits (hr : level + room = rules.limit) :
    v ∈ (stop (within rules room tag s)).visits ↔
      v ∈ s.visits ∨ Enters rules ⟨level, tag, s⟩ v := by
  induction room using Nat.strongRecOn generalizing level tag s with
  | ind room ih =>
      have hlevel : rules.limit - room = level := by omega
      have hroom : rules.limit - level = room := by omega
      have hown : v ∈ (stop (recordOf rules level tag s)).visits ↔ _ := mem_recordOf_visits
      rw [within_eq, hlevel, enters_iff, hroom]
      cases h : recordOf rules level tag s with
      | error f t =>
          rw [bind_of_error h]
          rw [h] at hown
          simp only [reduceCtorEq, false_and, and_false, exists_false, or_false]
          exact hown
      | ok own t =>
          have hbelow : v ∈ (stop (below rules (nested rules room) own t)).visits ↔ _ :=
            mem_below_visits hr fun below next u hb => ih below (by omega) (by omega)
          rw [bind_of_ok h, hbelow]
          rw [h] at hown
          simp only [EStateM.Result.ok.injEq, and_assoc, exists_and_left, exists_eq_left']
          rw [← or_assoc]
          exact or_congr_left hown

/-- The levels of the entities in a list, the latest first. -/
def levelsAll (level : Nat) (es : List Entity) : List Nat :=
  ((Entity.preorderAll level es).map Prod.fst).reverse

theorem levelsAll_cons (level : Nat) (e : Entity) (es : List Entity) :
    levelsAll level (e :: es) = levelsAll level es ++ levelsAll level [e] := by
  simp [levelsAll, Entity.preorderAll]

theorem levelsAll_node (level : Nat) (own : Record) (es : List Entity) :
    levelsAll level [.node own es] = levelsAll (level + 1) es ++ [level] := by
  simp [levelsAll, Entity.preorderAll, Entity.preorder]

theorem Steps.map_level {step : Decoder Entity} {es : List Entity} (h : Steps step s es t)
    (hstep : ∀ s e t, step s = .ok e t →
      t.visits.map Visit.level = levelsAll level [e] ++ s.visits.map Visit.level) :
    t.visits.map Visit.level = levelsAll level es ++ s.visits.map Visit.level := by
  induction h with
  | nil s => rfl
  | cons hs _ ih => rw [ih, hstep _ _ _ hs, ← List.append_assoc, ← levelsAll_cons]

/-- The visits of a decoding that succeeds have the levels of its tree. -/
theorem map_level_of_within {e : Entity} (hr : level + room = rules.limit)
    (h : within rules room tag s = .ok e t) :
    t.visits.map Visit.level = levelsAll level [e] ++ s.visits.map Visit.level := by
  induction room using Nat.strongRecOn generalizing level tag s e t with
  | ind room ih =>
      have hlevel : rules.limit - room = level := by omega
      obtain ⟨own, u, es, hown, hs, _, rfl⟩ := within_eq_ok.mp h
      obtain ⟨_, _, _, hvisits⟩ := recordOf_eq_ok.mp hown
      have hes : t.visits.map Visit.level =
          levelsAll (level + 1) es ++ u.visits.map Visit.level := hs.map_level fun s e t hstep => by
        obtain ⟨below, next, v, rfl, hi, hw⟩ := childStep_eq_ok.mp hstep
        have hbelow : level + 1 + below = rules.limit := by omega
        rw [ih below (Nat.lt_succ_self below) hbelow hw, (lift_eq_ok.mp hi).2]
      rw [hes, hvisits, levelsAll_node, List.map_cons, hlevel, List.append_assoc]
      rfl

end Visits

end WireCapture.Decoder
