import Mathlib.Algebra.GroupWithZero.Nat
import Mathlib.Data.List.Forall2
import WireCapture.Proofs.StreamCalls

/-!
# Frames sent back to back

A stream over the bytes of frames yields these frames again and stands behind each in
turn, whatever follows the last. What follows is read as if it stood alone, only
further on. So the bytes tell which frames were sent.
-/
namespace WireCapture.Stream

variable {s t : Stream} {a : Option (Except Fault Frame)}

/-- A stream with `n` more bytes before it. -/
def shift (n : Nat) (s : Stream) : Stream := { s with offset := n + s.offset }

theorem Step.shift (n : Nat) (h : Step s a t) : Step (s.shift n) a (t.shift n) := by
  cases h with
  | frame hlive hread =>
      have hstep := Step.frame (s := s.shift n) hlive hread
      rw [Stream.shift, Nat.add_assoc] at hstep
      exact hstep
  | fault hlive hrest hread => exact Step.fault (s := s.shift n) hlive hrest hread
  | ended hend => exact Step.ended (s := s.shift n) hend

theorem after_shift (n : Nat) (s : Stream) (k : Nat) :
    (s.shift n).after k = (s.after k).shift n := by
  induction k with
  | zero => rfl
  | succ k ih =>
      have hstep := ((s.step_answer k).shift n).next_eq
      rw [after, ih, hstep]

theorem answer_shift (n : Nat) (s : Stream) (k : Nat) : (s.shift n).answer k = s.answer k := by
  have hstep := ((s.step_answer k).shift n).next_eq
  rw [answer, after_shift, hstep]

/-- The pieces are the bytes of frames that arrive as they were sent. -/
abbrev Sent : List Frame → List Bytes → Prop :=
  List.Forall₂ fun f bs => f.toBytes = .ok bs ∧ f.Intact

theorem sent_of_mapM {fs : List Frame} {pieces : List Bytes}
    (hbytes : fs.mapM Frame.toBytes = .ok pieces) (hintact : ∀ f ∈ fs, f.Intact) :
    Sent fs pieces := by
  induction fs generalizing pieces with
  | nil =>
      cases hbytes
      exact .nil
  | cons f fs ih =>
      rw [List.mapM_cons] at hbytes
      cases hf : f.toBytes with
      | error e =>
          rw [hf] at hbytes
          cases hbytes
      | ok bs =>
          cases hfs : fs.mapM Frame.toBytes with
          | error e =>
              rw [hf, hfs] at hbytes
              cases hbytes
          | ok rest =>
              rw [hf, hfs] at hbytes
              cases hbytes
              exact .cons ⟨hf, hintact f List.mem_cons_self⟩
                (ih hfs fun g hg => hintact g (List.mem_cons_of_mem f hg))

theorem step_sent {f : Frame} {bs : Bytes} (hbytes : f.toBytes = .ok bs) (hintact : f.Intact)
    (offset : Nat) (rest : Bytes) :
    Step ⟨offset, bs ++ rest, false⟩ (some (.ok f)) ⟨offset + f.wireSize, rest, false⟩ := by
  have hread := Frame.ofBytes_of_toBytes hbytes rest
  rw [Frame.received_eq_self_iff.mpr hintact] at hread
  have hstep := Step.frame (s := ⟨offset, bs ++ rest, false⟩) rfl hread
  rw [List.drop_left' (Frame.length_toBytes hbytes)] at hstep
  exact hstep

variable {fs : List Frame} {pieces : List Bytes}

theorem after_sent (h : Sent fs pieces) (offset : Nat) (tail : Bytes) {k : Nat}
    (hk : k ≤ fs.length) :
    (Stream.mk offset (pieces.flatten ++ tail) false).after k =
      ⟨offset + ((fs.take k).map Frame.wireSize).sum, (pieces.drop k).flatten ++ tail, false⟩ := by
  induction h generalizing offset k with
  | nil =>
      obtain rfl := Nat.le_zero.mp hk
      rfl
  | @cons f bs fs pieces hf _ ih =>
      cases k with
      | zero => rfl
      | succ k =>
          have hstep := (step_sent hf.1 hf.2 offset (pieces.flatten ++ tail)).next_eq
          rw [after_succ, List.flatten_cons, List.append_assoc, hstep,
            ih _ (Nat.le_of_succ_le_succ hk)]
          simp [Nat.add_assoc]

theorem answer_sent (h : Sent fs pieces) (offset : Nat) (tail : Bytes) {k : Nat}
    (hk : k < fs.length) :
    (Stream.mk offset (pieces.flatten ++ tail) false).answer k = some (.ok fs[k]) := by
  induction h generalizing offset k with
  | nil => cases hk
  | @cons f bs fs pieces hf _ ih =>
      have hstep := (step_sent hf.1 hf.2 offset (pieces.flatten ++ tail)).next_eq
      rw [List.flatten_cons, List.append_assoc]
      cases k with
      | zero =>
          rw [answer, after, hstep]
          rfl
      | succ k =>
          rw [answer_succ, hstep, ih _ (Nat.lt_of_succ_lt_succ hk)]
          rfl

theorem sum_wireSize (h : Sent fs pieces) :
    (fs.map Frame.wireSize).sum = pieces.flatten.length := by
  induction h with
  | nil => rfl
  | cons hf _ ih => simp [ih, Frame.length_toBytes hf.1]

/-- Behind the frames the stream goes on as a fresh one over the tail. -/
theorem after_sent_add (h : Sent fs pieces) (tail : Bytes) (k : Nat) :
    (ofBytes (pieces.flatten ++ tail)).after (fs.length + k) =
      ((ofBytes tail).after k).shift pieces.flatten.length := by
  have hlength : pieces.length ≤ fs.length := Nat.le_of_eq h.length_eq.symm
  rw [after_add, ofBytes, after_sent h 0 tail (Nat.le_refl _), List.take_length, sum_wireSize h,
    List.drop_of_length_le hlength, ← after_shift]
  rw [Nat.zero_add]
  rfl

theorem answer_ofBytes_nil (k : Nat) : (ofBytes []).answer k = none :=
  answer_of_answer_none (k := 0) rfl (Nat.zero_le k)

/-- What the calls on the bytes of frames alone yield. -/
theorem answer_ofBytes_flatten (h : Sent fs pieces) (k : Nat) :
    (ofBytes pieces.flatten).answer k = fs[k]?.map .ok := by
  rw [← List.append_nil pieces.flatten]
  by_cases hk : k < fs.length
  · rw [ofBytes, answer_sent h 0 [] hk, List.getElem?_eq_getElem hk]
    rfl
  · obtain ⟨j, rfl⟩ := Nat.exists_eq_add_of_le (Nat.le_of_not_lt hk)
    rw [answer_add, ← Nat.add_zero fs.length, after_sent_add h [] 0, answer_shift,
      List.getElem?_eq_none (by omega)]
    exact answer_ofBytes_nil j

theorem sent_unique {gs : List Frame} {others : List Bytes} (h : Sent fs pieces)
    (hgs : Sent gs others) (hsame : others.flatten = pieces.flatten) : gs = fs := by
  apply List.ext_getElem?
  intro k
  have hanswer := answer_ofBytes_flatten hgs k
  rw [hsame, answer_ofBytes_flatten h k] at hanswer
  exact (Option.map_injective (fun _ _ => Except.ok.inj) hanswer).symm

/-- Frames that arrive unchanged are yielded in order from their bytes, what follows them
is read like a capture of its own, and no other frames have the same bytes. -/
theorem yields_sent_frames (hbytes : fs.mapM Frame.toBytes = .ok pieces)
    (hintact : ∀ f ∈ fs, f.Intact) (tail : Bytes) :
    (∀ k, (hk : k < fs.length) →
      (ofBytes (pieces.flatten ++ tail)).answer k = some (.ok fs[k])) ∧
    (∀ k ≤ fs.length, ((ofBytes (pieces.flatten ++ tail)).after k).offset =
      ((fs.take k).map Frame.wireSize).sum) ∧
    (∀ k, (ofBytes (pieces.flatten ++ tail)).answer (fs.length + k) = (ofBytes tail).answer k ∧
      ((ofBytes (pieces.flatten ++ tail)).after (fs.length + k)).offset =
        pieces.flatten.length + ((ofBytes tail).after k).offset) ∧
    ∀ gs others, gs.mapM Frame.toBytes = .ok others → (∀ g ∈ gs, g.Intact) →
      others.flatten = pieces.flatten → gs = fs := by
  have hsent := sent_of_mapM hbytes hintact
  refine ⟨fun k hk => answer_sent hsent 0 tail hk, ?_, ?_, ?_⟩
  · intro k hk
    rw [ofBytes, after_sent hsent 0 tail hk]
    exact Nat.zero_add _
  · intro k
    have hafter := after_sent_add hsent tail k
    refine ⟨?_, by rw [hafter]; rfl⟩
    have hmoved := answer_shift pieces.flatten.length ((ofBytes tail).after k) 0
    rw [← hafter] at hmoved
    exact hmoved
  · intro gs others hothers hgs hsame
    exact sent_unique hsent (sent_of_mapM hothers hgs) hsame

namespace Sample

def sent : List Frame :=
  [.start 1 0 1024 "é" 5, .data 1 2 3 [9, 9], .cancel 1 (.unknown 77)]

def sentPieces : List Bytes :=
  [ [0, 1, 0, 0, 4, 0, 0, 0xC3, 0xA9] ++ List.replicate 126 0 ++ [5, 0, 0, 0],
    [2, 1, 2, 3, 0, 2, 0, 9, 9], [5, 1, 77] ]

end Sample

/-- Three frames, then an `ack` that is cut off. -/
theorem yields_sent_frames_sample :
    Sample.sent.mapM Frame.toBytes = .ok Sample.sentPieces ∧
    (∀ f ∈ Sample.sent, f.Intact) ∧
    (ofBytes (Sample.sentPieces.flatten ++ [3, 1])).answer 1 = some (.ok (.data 1 2 3 [9, 9])) ∧
    ((ofBytes (Sample.sentPieces.flatten ++ [3, 1])).after 3).offset = 151 ∧
    (ofBytes (Sample.sentPieces.flatten ++ [3, 1])).answer 3 =
      some (.error (.unexpectedEnd 1 0)) := by
  have hbytes : Sample.sent.mapM Frame.toBytes = .ok Sample.sentPieces := by decide +kernel
  have hintact : ∀ f ∈ Sample.sent, f.Intact := by
    simp [Sample.sent, Frame.Intact]
  have h := yields_sent_frames hbytes hintact [3, 1]
  refine ⟨hbytes, hintact, h.1 1 (by decide), ?_, ?_⟩
  · rw [h.2.1 3 (by decide)]
    decide
  · exact (h.2.2.1 0).1.trans (by decide)

end WireCapture.Stream
