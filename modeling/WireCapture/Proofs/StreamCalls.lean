import Mathlib.Data.Nat.Find
import WireCapture.Frame.Stream
import WireCapture.Proofs.FrameRoundTrip

/-!
# Calls of a stream

What the calls of `next` on one capture yield, however many they are. A call yields a
frame, a fault or nothing, and `Step` says which it is and where the stream stands
then. What a step keeps is kept by every run: the stream reads the capture at its
offset, and the frames it yielded fill the bytes before. Each frame takes two bytes at
least, so the stream ends in time, and after a fault or an end nothing changes.
-/
namespace WireCapture

namespace Frame

variable {f : Frame} {bs : Bytes} {n : Nat}

theorem Kind.fixedSize_pos (k : Kind) : 0 < k.fixedSize := by
  cases k <;> decide

theorem two_le_wireSize (f : Frame) : 2 ≤ f.wireSize := by
  have hfixed := f.kind.fixedSize_pos
  rw [wireSize, payloadSize]
  omega

/-- A frame is read from its own bytes, with any part of what follows them. -/
theorem ofBytes_take {t : Nat} (h : ofBytes bs = .ok (f, n)) (ht : n ≤ t) :
    ofBytes (bs.take t) = .ok (f, n) := by
  obtain ⟨rfl, body, tail, himage, rfl⟩ := ofBytes_eq_ok_iff.mp h
  have hlength : (f.kind.opcode :: body).length ≤ t := by
    rw [List.length_cons, himage.length, Nat.add_comm]
    exact ht
  rw [← List.cons_append, List.take_append, List.take_of_length_le hlength]
  exact ofBytes_eq_ok_iff.mpr ⟨rfl, body, _, himage, rfl⟩

/-- Frames that fill the bytes one behind the other. -/
inductive Tiles : List Frame → Bytes → Prop
  | nil : Tiles [] []
  | snoc {fs : List Frame} {bs piece : Bytes} {f : Frame} : Tiles fs bs →
      ofBytes piece = .ok (f, piece.length) → Tiles (fs ++ [f]) (bs ++ piece)

end Frame

namespace Stream

/-- The ways in which a call of `next` ends. -/
inductive Step (s : Stream) : Option (Except Fault Frame) → Stream → Prop
  | frame {f : Frame} : s.failed = false → Frame.ofBytes s.rest = .ok (f, f.wireSize) →
      Step s (some (.ok f))
        { s with offset := s.offset + f.wireSize, rest := s.rest.drop f.wireSize }
  | fault {e : Fault} : s.failed = false → s.rest ≠ [] → Frame.ofBytes s.rest = .error e →
      Step s (some (.error e)) { s with failed := true }
  | ended : s.failed = true ∨ s.rest = [] → Step s none s

theorem step_next (s : Stream) : Step s s.next.1 s.next.2 := by
  unfold next
  split
  · rename_i hend
    exact .ended (by simpa using hend)
  · rename_i hlive
    simp only [Bool.or_eq_true, List.isEmpty_iff, not_or, Bool.not_eq_true] at hlive
    split
    · rename_i f n hread
      obtain rfl := Frame.ofBytes_size hread
      exact .frame hlive.1 hread
    · rename_i e hread
      exact .fault hlive.1 hlive.2 hread

variable {s t : Stream} {a : Option (Except Fault Frame)} {f : Frame} {e : Fault}

theorem Step.next_eq (h : Step s a t) : s.next = (a, t) := by
  cases h with
  | frame hlive hread =>
      have hrest : s.rest ≠ [] := by
        intro hnil
        rw [hnil] at hread
        cases hread
      simp [next, hlive, hrest, hread]
  | fault hlive hrest hread => simp [next, hlive, hrest, hread]
  | ended hend =>
      rcases hend with hend | hend <;> simp [next, hend]

theorem Step.of_frame (h : Step s (some (.ok f)) t) : s.failed = false ∧
    Frame.ofBytes s.rest = .ok (f, f.wireSize) ∧
    t = { s with offset := s.offset + f.wireSize, rest := s.rest.drop f.wireSize } := by
  cases h with
  | frame hlive hread => exact ⟨hlive, hread, rfl⟩

theorem Step.of_fault (h : Step s (some (.error e)) t) : s.rest ≠ [] ∧
    Frame.ofBytes s.rest = .error e ∧ t = { s with failed := true } := by
  cases h with
  | fault _ hrest hread => exact ⟨hrest, hread, rfl⟩

theorem Step.of_none (h : Step s none t) : (s.failed = true ∨ s.rest = []) ∧ t = s := by
  cases h with
  | ended hend => exact ⟨hend, rfl⟩

/-- A failed stream yields nothing. -/
theorem Step.eq_none (h : Step s a t) (hs : s.failed = true) : a = none := by
  cases h with
  | frame hlive _ => simp [hs] at hlive
  | fault hlive _ _ => simp [hs] at hlive
  | ended _ => rfl

/-- The stream after `k` calls. -/
def after (s : Stream) : Nat → Stream
  | 0 => s
  | k + 1 => (s.after k).next.2

/-- What the call after `k` others yields. -/
def answer (s : Stream) (k : Nat) : Option (Except Fault Frame) := (s.after k).next.1

/-- The frames that the first `k` calls yield. -/
def frames (s : Stream) (k : Nat) : List Frame :=
  (List.range k).filterMap fun i => (s.answer i).bind Except.toOption

theorem step_answer (s : Stream) (k : Nat) : Step (s.after k) (s.answer k) (s.after (k + 1)) :=
  step_next _

theorem step_of_answer {k : Nat} (h : s.answer k = a) : Step (s.after k) a (s.after (k + 1)) :=
  h ▸ s.step_answer k

theorem after_add (s : Stream) (j k : Nat) : s.after (j + k) = (s.after j).after k := by
  induction k with
  | zero => rfl
  | succ k ih => rw [← Nat.add_assoc, after, after, ih]

theorem answer_add (s : Stream) (j k : Nat) : s.answer (j + k) = (s.after j).answer k := by
  rw [answer, answer, after_add]

theorem after_succ (s : Stream) (k : Nat) : s.after (k + 1) = s.next.2.after k := by
  rw [Nat.add_comm, after_add]
  rfl

theorem answer_succ (s : Stream) (k : Nat) : s.answer (k + 1) = s.next.2.answer k := by
  rw [answer, answer, after_succ]

theorem frames_succ (s : Stream) (k : Nat) :
    s.frames (k + 1) = s.frames k ++ ((s.answer k).bind Except.toOption).toList := by
  rw [frames, List.range_succ, List.filterMap_append]
  cases h : (s.answer k).bind Except.toOption <;> simp [frames, h]

theorem frames_succ_of_ok {k : Nat} (h : s.answer k = some (.ok f)) :
    s.frames (k + 1) = s.frames k ++ [f] := by
  rw [frames_succ, h]
  rfl

theorem frames_succ_of_error {k : Nat} (h : s.answer k = some (.error e)) :
    s.frames (k + 1) = s.frames k := by
  rw [frames_succ, h]
  exact List.append_nil _

theorem after_of_answer_none {j k : Nat} (h : s.answer k = none) (hj : k ≤ j) :
    s.after j = s.after k := by
  induction j, hj using Nat.le_induction with
  | base => rfl
  | succ j _ ih =>
      have hj : s.answer j = none := by
        rw [answer, ih]
        exact h
      rw [(step_of_answer hj).of_none.2, ih]

theorem answer_of_answer_none {j k : Nat} (h : s.answer k = none) (hj : k ≤ j) :
    s.answer j = none := by
  rw [answer, after_of_answer_none h hj]
  exact h

theorem frames_of_answer_none {j k : Nat} (h : s.answer k = none) (hj : k ≤ j) :
    s.frames j = s.frames k := by
  induction j, hj using Nat.le_induction with
  | base => rfl
  | succ j hj ih => simp [frames_succ, answer_of_answer_none h hj, ih]

theorem answer_succ_of_error {k : Nat} (h : s.answer k = some (.error e)) :
    s.answer (k + 1) = none := by
  obtain ⟨-, -, hfailed⟩ := (step_of_answer h).of_fault
  refine (s.step_answer (k + 1)).eq_none ?_
  rw [hfailed]

/-- A stream over a capture reads it at its offset, and fails at a byte. -/
structure Over (data : Bytes) (s : Stream) : Prop where
  offset_le : s.offset ≤ data.length
  rest_eq : s.rest = data.drop s.offset
  unread : s.failed = true → s.rest ≠ []

theorem over_ofBytes (data : Bytes) : Over data (ofBytes data) :=
  ⟨Nat.zero_le _, rfl, fun h => absurd h Bool.false_ne_true⟩

variable {data : Bytes}

theorem Over.rest_eq_nil_iff (h : Over data s) : s.rest = [] ↔ s.offset = data.length := by
  rw [h.rest_eq, List.drop_eq_nil_iff]
  exact ⟨fun hle => Nat.le_antisymm h.offset_le hle, fun heq => Nat.le_of_eq heq.symm⟩

theorem Over.step (h : Over data s) (hstep : Step s a t) : Over data t := by
  cases hstep with
  | frame hlive hread =>
      refine ⟨?_, ?_, fun hfailed => absurd hfailed (by simp [hlive])⟩
      · have hsize := Frame.size_le_length hread
        rw [h.rest_eq, List.length_drop] at hsize
        have hle := h.offset_le
        change s.offset + _ ≤ data.length
        omega
      · rw [h.rest_eq, List.drop_drop]
  | fault _ hrest _ => exact ⟨h.offset_le, h.rest_eq, fun _ => hrest⟩
  | ended _ => exact h

theorem over_after (data : Bytes) (k : Nat) : Over data ((ofBytes data).after k) := by
  induction k with
  | zero => exact over_ofBytes data
  | succ k ih => exact ih.step (step_answer _ k)

theorem Step.offset_le (h : Step s a t) : s.offset ≤ t.offset := by
  cases h with
  | frame _ _ => exact Nat.le_add_right _ _
  | fault _ _ _ => exact Nat.le_refl _
  | ended _ => exact Nat.le_refl _

theorem Step.tiles {fs : List Frame} (h : Over data s) (hstep : Step s a t)
    (hfs : Frame.Tiles fs (data.take s.offset)) :
    Frame.Tiles (fs ++ (a.bind Except.toOption).toList) (data.take t.offset) := by
  cases hstep with
  | @frame f _ hread =>
      have hsize := Frame.size_le_length hread
      have hpiece : Frame.ofBytes (s.rest.take f.wireSize) =
          .ok (f, (s.rest.take f.wireSize).length) := by
        rw [List.length_take_of_le hsize]
        exact Frame.ofBytes_take hread (Nat.le_refl _)
      have htake : data.take (s.offset + f.wireSize) =
          data.take s.offset ++ s.rest.take f.wireSize := by
        rw [h.rest_eq, List.take_add]
      change Frame.Tiles (fs ++ [f]) (data.take (s.offset + f.wireSize))
      rw [htake]
      exact hfs.snoc hpiece
  | fault _ _ _ => exact (List.append_nil fs).symm ▸ hfs
  | ended _ => exact (List.append_nil fs).symm ▸ hfs

theorem tiles_frames (data : Bytes) (k : Nat) :
    Frame.Tiles ((ofBytes data).frames k) (data.take ((ofBytes data).after k).offset) := by
  induction k with
  | zero => exact .nil
  | succ k ih =>
      rw [frames_succ]
      exact (step_answer _ k).tiles (over_after data k) ih

theorem Step.two_mul_le (h : Step s a t) :
    s.offset + 2 * ((a.bind Except.toOption).toList).length ≤ t.offset := by
  cases h with
  | @frame f _ _ => exact Nat.add_le_add_left f.two_le_wireSize _
  | fault _ _ _ => exact Nat.le_refl _
  | ended _ => exact Nat.le_refl _

theorem two_mul_length_frames_le (s : Stream) (k : Nat) :
    s.offset + 2 * (s.frames k).length ≤ (s.after k).offset := by
  induction k with
  | zero => exact Nat.le_refl _
  | succ k ih =>
      have hstep := (s.step_answer k).two_mul_le
      rw [frames_succ, List.length_append]
      omega

/-- Only a frame is followed by something else. -/
theorem Step.add_two_le (h : Step s a t) (ht : t.next.1 ≠ none) : s.offset + 2 ≤ t.offset := by
  cases h with
  | @frame f _ _ => exact Nat.add_le_add_left f.two_le_wireSize _
  | fault _ _ _ => exact absurd ((step_next _).eq_none rfl) ht
  | ended hend =>
      rw [(Step.ended hend).next_eq] at ht
      exact absurd rfl ht

theorem two_mul_le_offset {k : Nat} (h : s.answer k ≠ none) :
    s.offset + 2 * k ≤ (s.after k).offset := by
  induction k with
  | zero => exact Nat.le_refl _
  | succ k ih =>
      have hk := ih fun hnone => h (answer_of_answer_none hnone (Nat.le_succ k))
      have hstep := (s.step_answer k).add_two_le h
      omega

theorem Step.rest_ne_nil (h : Step s a t) (ha : a ≠ none) : s.rest ≠ [] := by
  cases h with
  | frame _ hread =>
      intro hnil
      rw [hnil] at hread
      cases hread
  | fault _ hrest _ => exact hrest
  | ended _ => exact absurd rfl ha

theorem answer_eq_none {k : Nat} (h : data.length / 2 < k) : (ofBytes data).answer k = none := by
  by_contra hanswer
  have hover := over_after data k
  have hrest := (step_answer _ k).rest_ne_nil hanswer
  have hoffset := two_mul_le_offset hanswer
  rw [Ne, hover.rest_eq_nil_iff] at hrest
  have hle := hover.offset_le
  change 0 + 2 * k ≤ _ at hoffset
  omega

theorem Step.failed_iff (h : Step s a t) :
    t.failed = true ↔ s.failed = true ∨ ∃ e, a = some (.error e) := by
  cases h <;> simp

theorem failed_after_iff (data : Bytes) (k : Nat) : ((ofBytes data).after k).failed = true ↔
    ∃ j < k, ∃ e, (ofBytes data).answer j = some (.error e) := by
  induction k with
  | zero => simp [after, ofBytes]
  | succ k ih =>
      rw [(step_answer _ k).failed_iff, ih]
      simp only [Nat.lt_succ_iff_lt_or_eq, or_and_right, exists_or, exists_eq_left]

/-- A stream ends without a fault exactly at the end of the capture. -/
theorem ends_clean_iff {k : Nat} (h : (ofBytes data).answer k = none) :
    (∀ j e, (ofBytes data).answer j ≠ some (.error e)) ↔
      ((ofBytes data).after k).offset = data.length := by
  have hover := over_after data k
  rw [← hover.rest_eq_nil_iff]
  constructor
  · intro hclean
    have hlive : ¬ ((ofBytes data).after k).failed = true := by
      intro hfailed
      obtain ⟨j, -, e, he⟩ := (failed_after_iff data k).mp hfailed
      exact hclean j e he
    exact (step_of_answer h).of_none.1.resolve_left hlive
  · intro hrest j e he
    have hj : j < k := by
      refine Nat.lt_of_not_le fun hle => ?_
      rw [answer_of_answer_none h hle] at he
      cases he
    exact hover.unread ((failed_after_iff data k).mpr ⟨j, hj, e, he⟩) hrest

theorem contents_go_of_frame {done : List Frame} (h : Step s (some (.ok f)) t) :
    contents.go s done = contents.go t (f :: done) := by
  rw [contents.go]
  split <;> simp_all [h.next_eq]

theorem contents_go_of_fault {done : List Frame} (h : Step s (some (.error e)) t) :
    contents.go s done = ⟨done.reverse, some e, t.offset⟩ := by
  rw [contents.go]
  split <;> simp_all [h.next_eq]

theorem contents_go_of_none {done : List Frame} (h : Step s none t) :
    contents.go s done = ⟨done.reverse, none, t.offset⟩ := by
  rw [contents.go]
  split <;> simp_all [h.next_eq]

/-- The first `k` calls yield frames. -/
def YieldsFrames (s : Stream) (k : Nat) : Prop := ∀ j < k, ∃ f, s.answer j = some (.ok f)

theorem contents_of_yieldsFrames {k : Nat} (h : s.YieldsFrames k) :
    s.contents = contents.go (s.after k) (s.frames k).reverse := by
  induction k with
  | zero => rfl
  | succ k ih =>
      obtain ⟨f, hf⟩ := h k (Nat.lt_succ_self k)
      rw [ih fun j hj => h j (Nat.lt_succ_of_lt hj), contents_go_of_frame (step_of_answer hf),
        frames_succ_of_ok hf, List.reverse_concat]

theorem exists_yieldsFrames {k : Nat} (h : s.answer k = none) :
    ∃ m, s.YieldsFrames m ∧ ∀ f, s.answer m ≠ some (.ok f) := by
  classical
  have hstop : ∃ m, ∀ f, s.answer m ≠ some (.ok f) := ⟨k, by simp [h]⟩
  refine ⟨Nat.find hstop, fun j hj => ?_, Nat.find_spec hstop⟩
  simpa using Nat.find_min hstop hj

/-- At most one answer is a fault, and it is the one behind the frames. -/
theorem exists_fault_iff {m : Nat} (hm : s.YieldsFrames m) (hend : s.answer (m + 1) = none) :
    (∃ j, s.answer j = some (.error e)) ↔ s.answer m = some (.error e) := by
  refine ⟨fun h => ?_, fun h => ⟨m, h⟩⟩
  obtain ⟨j, hj⟩ := h
  rcases Nat.lt_trichotomy j m with hlt | rfl | hgt
  · obtain ⟨f, hf⟩ := hm j hlt
    rw [hf] at hj
    cases hj
  · exact hj
  · rw [answer_of_answer_none hend hgt] at hj
    cases hj

theorem after_unique {j k : Nat} (hj : s.answer j = none) (hk : s.answer k = none) :
    s.after j = s.after k := by
  rcases Nat.le_total j k with hle | hle
  · exact (after_of_answer_none hj hle).symm
  · exact after_of_answer_none hk hle

theorem frames_unique {j k : Nat} (hj : s.answer j = none) (hk : s.answer k = none) :
    s.frames j = s.frames k := by
  rcases Nat.le_total j k with hle | hle
  · exact (frames_of_answer_none hj hle).symm
  · exact frames_of_answer_none hk hle

/-- The contents of a stream are what the calls up to its end yield. -/
theorem contents_eq {k : Nat} (h : s.answer k = none) :
    s.contents.frames = s.frames k ∧ s.contents.offset = (s.after k).offset ∧
      ∀ e, s.contents.fault = some e ↔ ∃ j, s.answer j = some (.error e) := by
  obtain ⟨m, hm, hstop⟩ := exists_yieldsFrames h
  have hcontents := contents_of_yieldsFrames hm
  cases hanswer : s.answer m with
  | none =>
      have hend := answer_of_answer_none hanswer (Nat.le_succ m)
      rw [contents_go_of_none (step_of_answer hanswer), List.reverse_reverse] at hcontents
      rw [hcontents, frames_unique h hanswer, after_unique h hend]
      simp [exists_fault_iff hm hend, hanswer]
  | some r =>
      cases r with
      | ok f => exact absurd hanswer (hstop f)
      | error e =>
          have hend := answer_succ_of_error hanswer
          rw [contents_go_of_fault (step_of_answer hanswer), List.reverse_reverse] at hcontents
          rw [hcontents, frames_unique h hend, frames_succ_of_error hanswer, after_unique h hend]
          simp [exists_fault_iff hm hend, hanswer]

/-- How the calls on one capture go. -/
structure Walk (data : Bytes) (s : Stream) : Prop where
  inside : ∀ k, Over data (s.after k)
  forward : ∀ k, (s.after k).offset ≤ (s.after (k + 1)).offset
  frame : ∀ k f, s.answer k = some (.ok f) →
    Frame.ofBytes (data.drop (s.after k).offset) = .ok (f, f.wireSize) ∧
      (s.after (k + 1)).offset = (s.after k).offset + f.wireSize
  /-- The frames so far fill the bytes up to the offset. -/
  tiles : ∀ k, Frame.Tiles (s.frames k) (data.take (s.after k).offset)
  fault : ∀ k e, s.answer k = some (.error e) →
    Frame.ofBytes (data.drop (s.after k).offset) = .error e ∧
      ∀ j > k, s.answer j = none ∧ (s.after j).offset = (s.after k).offset
  ended : ∀ k, s.answer k = none →
    ∀ j ≥ k, s.answer j = none ∧ (s.after j).offset = (s.after k).offset
  /-- Besides the frames there is one fault at most. -/
  short : ∀ k, (s.frames k).length ≤ data.length / 2 ∧
    (data.length / 2 < k → s.answer k = none)
  clean_iff : ∀ k, s.answer k = none →
    ((∀ j e, s.answer j ≠ some (.error e)) ↔ (s.after k).offset = data.length)
  /-- Reading all frames at once comes to the same. -/
  contents : ∀ k, s.answer k = none → (Frame.allOfBytes data).frames = s.frames k ∧
    ∀ e, (Frame.allOfBytes data).fault = some e ↔ ∃ j, s.answer j = some (.error e)

theorem walk_ofBytes (data : Bytes) : Walk data (ofBytes data) where
  inside := over_after data
  forward k := (step_answer _ k).offset_le
  frame k f hf := by
    obtain ⟨-, hread, hafter⟩ := (step_of_answer hf).of_frame
    rw [(over_after data k).rest_eq] at hread
    exact ⟨hread, by rw [hafter]⟩
  tiles := tiles_frames data
  fault k e he := by
    obtain ⟨-, hread, hafter⟩ := (step_of_answer he).of_fault
    rw [(over_after data k).rest_eq] at hread
    have hend := answer_succ_of_error he
    refine ⟨hread, fun j hj => ⟨answer_of_answer_none hend hj, ?_⟩⟩
    rw [after_of_answer_none hend hj, hafter]
  ended k hk j hj := ⟨answer_of_answer_none hk hj, by rw [after_of_answer_none hk hj]⟩
  short k := by
    have hcount := two_mul_length_frames_le (ofBytes data) k
    have hle := (over_after data k).offset_le
    exact ⟨by omega, answer_eq_none⟩
  clean_iff _ := ends_clean_iff
  contents _ hk := ⟨(contents_eq hk).1, (contents_eq hk).2.2⟩

end Stream

end WireCapture
