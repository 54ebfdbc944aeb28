import WireCapture.Proofs.ReaderFaults
import WireCapture.Proofs.StreamCalls

/-!
# Cut captures

A capture that is cut off yields the frames that end before the cut, each as it was. A
cut between frames goes unnoticed. Behind any other cut stands an unexpected end of the
bytes, or the unknown opcode at which the whole capture had failed too: an opcode does
not depend on what follows it.
-/
namespace WireCapture

namespace Frame

open Reader in
theorem short_payloadReader (k : Kind) : OnlyShort (payloadReader k) := by
  cases k with
  | start =>
      refine short_u8.bind fun _ => short_u8.bind fun _ => short_u32.bind fun _ => ?_
      refine (short_take nameWidth).map.bind fun _ => short_u8.bind fun _ => ?_
      exact (short_take 3).bind fun _ => .pure _
  | accept => exact short_u8.bind fun _ => short_u8.bind fun _ => .pure _
  | data =>
      refine short_u8.bind fun _ => short_u8.bind fun _ => short_u16.bind fun _ => ?_
      exact short_u16.bind fun length => (short_take length.toNat).bind fun _ => .pure _
  | ack => exact short_u8.bind fun _ => short_u8.bind fun _ => short_u16.bind fun _ => .pure _
  | done => exact short_u8.map
  | cancel => exact short_u8.bind fun _ => short_u8.bind fun _ => .pure _
  | abort => exact short_u8.bind fun _ => short_u8.bind fun _ => .pure _

theorem ofPayload_fault {k : Kind} {bs : Bytes} {e : Fault} (h : ofPayload k bs = .error e) :
    e.isUnexpectedEnd = true := by
  unfold ofPayload at h
  split at h
  · cases h
  · rename_i hread
    cases h
    exact short_payloadReader k _ _ _ hread

variable {f : Frame} {bs : Bytes} {n t : Nat} {e : Fault}

theorem ofBytes_unknown {code : UInt8} (h : Kind.ofOpcode? code = none) (payload : Bytes) :
    ofBytes (code :: payload) = .error (.unknownOpcode code) := by
  simp only [ofBytes, h]

/-- A frame is cut off or has an unknown opcode. -/
theorem ofBytes_fault (h : ofBytes bs = .error e) : e.isUnexpectedEnd = true ∨
    ∃ code payload, bs = code :: payload ∧ Kind.ofOpcode? code = none ∧
      e = .unknownOpcode code := by
  unfold ofBytes at h
  split at h
  · cases h
    exact .inl rfl
  · rename_i code payload
    split at h
    · rename_i hcode
      cases h
      exact .inr ⟨code, payload, rfl, hcode, rfl⟩
    · split at h
      · cases h
      · rename_i hpayload
        cases h
        exact .inl (ofPayload_fault hpayload)

theorem ofBytes_of_part {part : Bytes} (hpart : part <+: bs) (h : ofBytes part = .ok (f, n)) :
    ofBytes bs = .ok (f, n) := by
  obtain ⟨more, rfl⟩ := hpart
  obtain ⟨rfl, body, tail, himage, rfl⟩ := ofBytes_eq_ok_iff.mp h
  rw [List.cons_append, List.append_assoc]
  exact ofBytes_eq_ok_iff.mpr ⟨rfl, body, _, himage, rfl⟩

/-- A fault in a part of the bytes either comes from the cut or stays. -/
theorem ofBytes_fault_of_part {part : Bytes} (hpart : part <+: bs)
    (h : ofBytes part = .error e) : e.isUnexpectedEnd = true ∨ ofBytes bs = .error e := by
  rcases ofBytes_fault h with hshort | ⟨code, payload, rfl, hcode, rfl⟩
  · exact .inl hshort
  · obtain ⟨more, rfl⟩ := hpart
    exact .inr (ofBytes_unknown hcode (payload ++ more))

/-- A part of a frame ends too early. -/
theorem ofBytes_take_of_lt (h : ofBytes bs = .ok (f, n)) (ht : t < n) :
    ∃ e, ofBytes (bs.take t) = .error e ∧ e.isUnexpectedEnd = true := by
  have hpart := List.take_prefix t bs
  cases hread : ofBytes (bs.take t) with
  | ok r =>
      obtain ⟨g, m⟩ := r
      cases h.symm.trans (ofBytes_of_part hpart hread)
      have hsize := size_le_length hread
      rw [List.length_take] at hsize
      omega
  | error e =>
      refine ⟨e, rfl, (ofBytes_fault_of_part hpart hread).resolve_right ?_⟩
      simp [h]

/-- A part of bytes that are no frame ends too early or has the same unknown opcode. -/
theorem ofBytes_take_of_fault (h : ofBytes bs = .error e) (ht : 0 < t) :
    ∃ e', ofBytes (bs.take t) = .error e' ∧
      (e.isUnexpectedEnd = true ∧ e'.isUnexpectedEnd = true ∨
        ∃ code, e = .unknownOpcode code ∧ e' = e) := by
  have hpart := List.take_prefix t bs
  rcases ofBytes_fault h with hshort | ⟨code, payload, rfl, hcode, rfl⟩
  · cases hread : ofBytes (bs.take t) with
    | ok r =>
        rw [ofBytes_of_part hpart hread] at h
        cases h
    | error e' =>
        refine ⟨e', rfl, .inl ⟨hshort, ?_⟩⟩
        rcases ofBytes_fault_of_part hpart hread with hshort' | hsame
        · exact hshort'
        · cases h.symm.trans hsame
          exact hshort
  · rw [List.take_cons ht]
    exact ⟨_, ofBytes_unknown hcode _, .inr ⟨code, rfl, rfl⟩⟩

end Frame

namespace Stream

variable {s t : Stream} {f : Frame} {e : Fault} {marks : List (Frame × Nat)}
  {fault fault' : Option Fault}

/-- The stream yields frames that end at the marked offsets, then a fault or none, then
nothing. -/
structure Runs (s : Stream) (marks : List (Frame × Nat)) (fault : Option Fault) : Prop where
  frame : ∀ k, (hk : k < marks.length) → s.answer k = some (.ok marks[k].1) ∧
    (s.after (k + 1)).offset = marks[k].2
  stop : s.answer marks.length = fault.map .error
  ended : ∀ k > marks.length, s.answer k = none

theorem Runs.of_frame (h : Step s (some (.ok f)) t) (ht : t.Runs marks fault) :
    s.Runs ((f, t.offset) :: marks) fault := by
  have hnext := h.next_eq
  refine ⟨?_, ?_, ?_⟩
  · intro k hk
    cases k with
    | zero =>
        rw [answer, after, after, after, hnext]
        exact ⟨rfl, rfl⟩
    | succ k =>
        rw [answer_succ, after_succ, hnext]
        exact ht.frame k (Nat.lt_of_succ_lt_succ hk)
  · rw [List.length_cons, answer_succ, hnext]
    exact ht.stop
  · intro k hk
    obtain ⟨k, rfl⟩ := Nat.exists_eq_add_of_lt hk
    rw [answer_succ, hnext]
    exact ht.ended _ (by rw [List.length_cons]; omega)

theorem Runs.of_fault (h : Step s (some (.error e)) t) : s.Runs [] (some e) := by
  have hanswer : s.answer 0 = some (.error e) := by rw [answer, after, h.next_eq]
  refine ⟨fun k hk => absurd hk (Nat.not_lt_zero k), hanswer, fun k hk => ?_⟩
  exact answer_of_answer_none (answer_succ_of_error hanswer) hk

theorem Runs.of_ended (h : s.failed = true ∨ s.rest = []) : s.Runs [] none := by
  have hanswer : s.answer 0 = none := by rw [answer, after, (Step.ended h).next_eq]
  refine ⟨fun k hk => absurd hk (Nat.not_lt_zero k), hanswer, fun k _ => ?_⟩
  exact answer_of_answer_none hanswer (Nat.zero_le k)

theorem exists_runs (s : Stream) : ∃ marks fault, s.Runs marks fault := by
  have hstep := s.step_next
  match hnext : s.next with
  | (some (.ok f), t) =>
      have hless := length_rest_lt hnext
      rw [hnext] at hstep
      obtain ⟨marks, fault, hruns⟩ := exists_runs t
      exact ⟨_, _, hruns.of_frame hstep⟩
  | (some (.error e), t) =>
      rw [hnext] at hstep
      exact ⟨_, _, .of_fault hstep⟩
  | (none, t) =>
      rw [hnext] at hstep
      exact ⟨_, _, .of_ended hstep.of_none.1⟩
termination_by s.rest.length

theorem Runs.step_of_cons {m : Frame × Nat} (h : s.Runs (m :: marks) fault) :
    ∃ t, Step s (some (.ok m.1)) t ∧ t.offset = m.2 ∧ t.Runs marks fault := by
  obtain ⟨hframe, hoffset⟩ := h.frame 0 (Nat.succ_pos _)
  refine ⟨s.next.2, step_of_answer hframe, hoffset, ?_, ?_, ?_⟩
  · intro k hk
    rw [← answer_succ, ← after_succ]
    exact h.frame (k + 1) (Nat.succ_lt_succ hk)
  · rw [← answer_succ]
    exact h.stop
  · intro k hk
    rw [← answer_succ]
    exact h.ended (k + 1) (Nat.succ_lt_succ hk)

theorem Runs.step_of_nil (h : s.Runs [] fault) : ∃ t, Step s (fault.map .error) t :=
  ⟨_, step_of_answer h.stop⟩

/-- Every frame of a run lies behind the stream. -/
theorem Runs.wireSize_le (h : s.Runs marks fault) :
    ∀ m ∈ marks, s.offset + m.1.wireSize ≤ m.2 := by
  induction marks generalizing s with
  | nil => simp
  | cons m marks ih =>
      obtain ⟨t, hstep, hend, hruns⟩ := h.step_of_cons
      have hstart := hstep.offset_le
      obtain ⟨-, -, rfl⟩ := hstep.of_frame
      intro m' hm'
      rcases List.mem_cons.mp hm' with rfl | hm'
      · exact Nat.le_of_eq hend
      · have hle := ih hruns m' hm'
        omega

theorem Runs.ends_increase (h : s.Runs marks fault) :
    (marks.map Prod.snd).Pairwise (· < ·) := by
  induction marks generalizing s with
  | nil => exact .nil
  | cons m marks ih =>
      obtain ⟨t, -, hend, hruns⟩ := h.step_of_cons
      rw [List.map_cons, List.pairwise_cons, List.forall_mem_map, ← hend]
      refine ⟨fun m' hm' => ?_, ih hruns⟩
      have hle := hruns.wireSize_le m' hm'
      have hpos := m'.1.wireSize_pos
      omega

/-- The stream over the same capture cut off at an offset. -/
def cut (c : Nat) (s : Stream) : Stream := { s with rest := s.rest.take (c - s.offset) }

/-- The frames that end at an offset or before it. -/
def endingBy (c : Nat) (marks : List (Frame × Nat)) : List (Frame × Nat) :=
  marks.filter fun m => m.2 ≤ c

theorem endingBy_cons {c : Nat} {m : Frame × Nat} (h : m.2 ≤ c) :
    endingBy c (m :: marks) = m :: endingBy c marks := List.filter_cons_of_pos (decide_eq_true h)

theorem endingBy_eq_nil {c : Nat} (h : ∀ m ∈ marks, c < m.2) : endingBy c marks = [] := by
  simpa [endingBy] using h

/-- How the run over a capture cut off at `c` ends. The run over the whole stood at `start`
and went on with `marks` and `fault`. -/
structure CutEnd (start c : Nat) (marks : List (Frame × Nat)) (fault fault' : Option Fault) :
    Prop where
  between : c = start ∨ c ∈ marks.map Prod.snd → fault' = none
  inside : (∃ m ∈ marks, m.2 < c + m.1.wireSize ∧ c < m.2) →
    ∃ e, fault' = some e ∧ e.isUnexpectedEnd = true
  /-- Behind all frames the whole capture has a fault too. -/
  behind : start < c → (∀ m ∈ marks, m.2 < c) → ∃ e e', fault = some e ∧ fault' = some e' ∧
    (e.isUnexpectedEnd = true ∧ e'.isUnexpectedEnd = true ∨
      ∃ code, e = .unknownOpcode code ∧ e' = e)

variable {c start : Nat}

theorem CutEnd.cons {m : Frame × Nat} (h : CutEnd m.2 c marks fault fault') (hstart : start < m.2)
    (hc : m.2 ≤ c) : CutEnd start c (m :: marks) fault fault' := by
  refine ⟨?_, ?_, ?_⟩
  · intro hb
    rw [List.map_cons, List.mem_cons] at hb
    exact h.between (hb.resolve_left (by omega))
  · intro hi
    obtain ⟨m', hm', hlow, hhigh⟩ := hi
    rcases List.mem_cons.mp hm' with rfl | hm'
    · exact absurd hhigh (Nat.not_lt_of_le hc)
    · exact h.inside ⟨m', hm', hlow, hhigh⟩
  · intro _ hall
    rw [List.forall_mem_cons] at hall
    exact h.behind hall.1 hall.2

/-- A frame leaves as many bytes as lie behind it. -/
theorem Step.frame_advances (h : Step s (some (.ok f)) t) : t.failed = false ∧
    s.offset < t.offset ∧ t.offset + t.rest.length = s.offset + s.rest.length := by
  obtain ⟨hlive, hread, rfl⟩ := h.of_frame
  have hpos := f.wireSize_pos
  have hsize := Frame.size_le_length hread
  refine ⟨hlive, Nat.lt_add_of_pos_right hpos, ?_⟩
  rw [List.length_drop, Nat.add_assoc, Nat.add_sub_of_le hsize]

theorem Step.cut (h : Step s (some (.ok f)) t) (hc : t.offset ≤ c) :
    Step (s.cut c) (some (.ok f)) (t.cut c) := by
  obtain ⟨hlive, hread, rfl⟩ := h.of_frame
  have hle : f.wireSize ≤ c - s.offset := Nat.le_sub_of_add_le' hc
  have hstep := Step.frame (s := s.cut c) hlive (Frame.ofBytes_take hread hle)
  rw [Stream.cut, List.drop_take, Nat.sub_sub] at hstep
  exact hstep

theorem Runs.cut_at_start (h : s.Runs marks fault) : ∃ fault',
    (s.cut s.offset).Runs (endingBy s.offset marks) fault' ∧
      CutEnd s.offset s.offset marks fault fault' := by
  have hend := h.wireSize_le
  have hlater : ∀ m ∈ marks, s.offset < m.2 := by
    intro m hm
    have hpos := m.1.wireSize_pos
    have hle := hend m hm
    omega
  rw [endingBy_eq_nil hlater]
  refine ⟨none, .of_ended (.inr ?_), fun _ => rfl, ?_, ?_⟩
  · rw [Stream.cut, Nat.sub_self, List.take_zero]
  · intro hi
    obtain ⟨m, hm, hlow, -⟩ := hi
    exact absurd hlow (Nat.not_lt_of_le (hend m hm))
  · intro hlt
    exact absurd hlt (Nat.lt_irrefl _)

theorem runs_cut_of_fault (hlive : s.failed = false) (hrest : s.rest ≠ []) (hc : s.offset < c)
    (he : Frame.ofBytes (s.rest.take (c - s.offset)) = .error e) :
    (s.cut c).Runs [] (some e) := by
  refine .of_fault (.fault hlive ?_ he)
  rw [Stream.cut, Ne, List.take_eq_nil_iff, not_or]
  exact ⟨Nat.sub_ne_zero_of_lt hc, hrest⟩

theorem Runs.cut_in_frame {m : Frame × Nat} (h : s.Runs (m :: marks) fault)
    (hstart : s.offset < c) (hc : c < m.2) : ∃ fault',
    (s.cut c).Runs (endingBy c (m :: marks)) fault' ∧
      CutEnd s.offset c (m :: marks) fault fault' := by
  obtain ⟨t, hstep, hend, -⟩ := h.step_of_cons
  have hrest := hstep.rest_ne_nil (by simp)
  obtain ⟨hlive, hread, rfl⟩ := hstep.of_frame
  have hless : c - s.offset < m.1.wireSize := by
    change s.offset + m.1.wireSize = m.2 at hend
    omega
  obtain ⟨e, he, hshort⟩ := Frame.ofBytes_take_of_lt hread hless
  have hlater : ∀ m' ∈ m :: marks, c < m'.2 := by
    have hincrease := h.ends_increase
    rw [List.map_cons, List.pairwise_cons, List.forall_mem_map] at hincrease
    rw [List.forall_mem_cons]
    exact ⟨hc, fun m' hm' => Nat.lt_trans hc (hincrease.1 m' hm')⟩
  rw [endingBy_eq_nil hlater]
  refine ⟨some e, runs_cut_of_fault hlive hrest hstart he, ?_, fun _ => ⟨e, rfl, hshort⟩, ?_⟩
  · intro hb
    rcases hb with rfl | hmem
    · exact absurd hstart (Nat.lt_irrefl _)
    · obtain ⟨m', hm', rfl⟩ := List.mem_map.mp hmem
      exact absurd (hlater m' hm') (Nat.lt_irrefl _)
  · intro _ hall
    exact absurd (hall m List.mem_cons_self) (Nat.lt_asymm hc)

/-- Bytes behind the last frame that are no frame. -/
theorem Runs.cut_in_tail (h : s.Runs [] fault) (hlive : s.failed = false)
    (hstart : s.offset < c) (hc : c ≤ s.offset + s.rest.length) : ∃ fault',
    (s.cut c).Runs [] fault' ∧ CutEnd s.offset c [] fault fault' := by
  obtain ⟨t, hstep⟩ := h.step_of_nil
  cases fault with
  | none =>
      have hrest := hstep.of_none.1.resolve_left (by simp [hlive])
      rw [hrest, List.length_nil] at hc
      omega
  | some e =>
      obtain ⟨hrest, hread, -⟩ := hstep.of_fault
      obtain ⟨e', he', hsame⟩ := Frame.ofBytes_take_of_fault hread (Nat.sub_pos_of_lt hstart)
      refine ⟨some e', runs_cut_of_fault hlive hrest hstart he', ?_, ?_, ?_⟩
      · intro hb
        rcases hb with rfl | hmem
        · exact absurd hstart (Nat.lt_irrefl _)
        · cases hmem
      · intro hi
        obtain ⟨m, hm, -⟩ := hi
        cases hm
      · exact fun _ _ => ⟨e, e', rfl, rfl, hsame⟩

/-- A run and the run over a part of the same bytes. -/
theorem Runs.cut (h : s.Runs marks fault) (hlive : s.failed = false) (hstart : s.offset ≤ c)
    (hc : c ≤ s.offset + s.rest.length) : ∃ fault',
    (s.cut c).Runs (endingBy c marks) fault' ∧
      CutEnd s.offset c marks fault fault' := by
  -- Over the frames before the cut. Both runs take them in step.
  induction marks generalizing s with
  | nil =>
      rcases Nat.eq_or_lt_of_le hstart with rfl | hstart
      · exact h.cut_at_start
      · exact h.cut_in_tail hlive hstart hc
  | cons m marks ih =>
      by_cases hend : m.2 ≤ c
      · obtain ⟨f, n⟩ := m
        obtain ⟨t, hstep, rfl, hruns⟩ := h.step_of_cons
        obtain ⟨hlive, hless, hlength⟩ := hstep.frame_advances
        obtain ⟨fault', hcut, htail⟩ := ih hruns hlive hend (hlength ▸ hc)
        have hwhole := Runs.of_frame (hstep.cut hend) hcut
        rw [endingBy_cons hend]
        exact ⟨fault', hwhole, htail.cons hless hend⟩
      · rcases Nat.eq_or_lt_of_le hstart with rfl | hstart
        · exact h.cut_at_start
        · exact h.cut_in_frame hstart (Nat.lt_of_not_le hend)

/-- Of a capture that is cut off at `c` the frames that end by then are yielded, and no
other frame. -/
theorem runs_take (data : Bytes) : (∃ marks fault, (ofBytes data).Runs marks fault) ∧
    ∀ marks fault, (ofBytes data).Runs marks fault →
      (marks.map Prod.snd).Pairwise (· < ·) ∧
      ∀ c ≤ data.length, ∃ fault',
        (ofBytes (data.take c)).Runs (endingBy c marks) fault' ∧
        CutEnd 0 c marks fault fault' := by
  refine ⟨exists_runs _, fun marks fault h => ⟨h.ends_increase, fun c hc => ?_⟩⟩
  exact h.cut rfl (Nat.zero_le c) (hc.trans (Nat.le_add_left _ _))

namespace Sample

/-- A `done`, an `accept` and a byte that is no opcode. -/
def broken : Bytes := [4, 9, 1, 2, 3, 200]

theorem runs_broken :
    (ofBytes broken).Runs [(.done 9, 2), (.accept 2 3, 5)] (some (.unknownOpcode 200)) := by
  have hdone : Step (ofBytes broken) (some (.ok (.done 9))) ⟨2, [1, 2, 3, 200], false⟩ :=
    .frame rfl (by decide)
  have haccept : Step ⟨2, [1, 2, 3, 200], false⟩ (some (.ok (.accept 2 3))) ⟨5, [200], false⟩ :=
    .frame rfl (by decide)
  have hbroken : Step ⟨5, [200], false⟩ (some (.error (.unknownOpcode 200))) ⟨5, [200], true⟩ :=
    .fault rfl (by decide) (by decide)
  exact .of_frame hdone (.of_frame haccept (.of_fault hbroken))

end Sample

/-- The cut stands in the `accept`. -/
theorem runs_take_broken :
    (ofBytes Sample.broken).Runs [(.done 9, 2), (.accept 2 3, 5)] (some (.unknownOpcode 200)) ∧
    ∃ e, (ofBytes (Sample.broken.take 4)).Runs [(.done 9, 2)] (some e) ∧
      e.isUnexpectedEnd = true := by
  refine ⟨Sample.runs_broken, ?_⟩
  have hcuts := ((runs_take Sample.broken).2 _ _ Sample.runs_broken).2
  obtain ⟨fault', hcut, hend⟩ := hcuts 4 (by decide)
  obtain ⟨e, rfl, he⟩ := hend.inside ⟨(.accept 2 3, 5), by simp, by decide, by decide⟩
  exact ⟨e, hcut, he⟩

end Stream

end WireCapture
