import Mathlib.Logic.Function.Basic
import WireCapture.Proofs.CompactDocuments
import WireCapture.Proofs.FramesCommand

/-!
# Rendered frames

A rendered frame is no other frame's rendering, in either form. In the compact form it is
a line, so what a run prints that lists frames has one line for each of them, and tells
which frames these are.
-/
namespace WireCapture

theorem Json.nat_inj {m n : Nat} : nat m = nat n ↔ m = n := by
  rw [nat, nat, number.injEq, Int.natCast_inj]

theorem Reason.document_inj {r s : Reason} : r.document = s.document ↔ r = s := by
  cases r <;> cases s <;> simp [document, Json.nat_inj, UInt8.toNat_inj]

theorem Reason.exact_document (r : Reason) : r.document.Exact := by
  cases r <;> simp [document]

namespace Frame

theorem Kind.label_inj {k k' : Kind} : k.label = k'.label ↔ k = k' := by
  cases k <;> cases k' <;> simp [label]

theorem numbers_inj {bs cs : Bytes} :
    bs.map (fun b => Json.nat b.toNat) = cs.map (fun b => Json.nat b.toNat) ↔ bs = cs := by
  refine List.map_inj_right fun b c h => ?_
  exact UInt8.toNat_inj.mp (Json.nat_inj.mp h)

/-- Frames of one kind differ in a field. -/
theorem fields_inj {f g : Frame} (hkind : f.kind = g.kind) (h : f.fields = g.fields) : f = g := by
  cases f <;> cases g <;> cases hkind
  all_goals simpa [fields, Json.nat_inj, numbers_inj, Reason.document_inj, UInt8.toNat_inj,
    UInt16.toNat_inj, UInt32.toNat_inj] using h

theorem document_inj {f g : Frame} (h : f.document = g.document) : f = g := by
  simp only [document, Json.object.injEq, List.cons.injEq, Prod.mk.injEq, Json.string.injEq,
    true_and] at h
  exact fields_inj (Kind.label_inj.mp h.1) h.2

theorem exact_document (f : Frame) : f.document.Exact := by
  cases f <;> simp [document, fields, Reason.exact_document]

theorem render_inj {f g : Frame} {format : Json.Format} (h : f.render format = g.render format) :
    f = g :=
  document_inj (Json.render_inj f.exact_document g.exact_document h)

def printed (fs : List Frame) : String :=
  String.join (fs.map fun f => f.render .compact ++ "\n")

theorem lines_printed (fs : List Frame) :
    Text.lines (printed fs).toList = fs.map fun f => (f.render .compact).toList := by
  have hlines : ∀ l ∈ fs.map (fun f => (f.render .compact).toList), '\n' ∉ l := by
    intro l hl
    obtain ⟨f, -, rfl⟩ := List.mem_map.mp hl
    exact Json.line_feed_not_mem_render f.document
  rw [← Text.lines_flatMap_feed hlines, printed, String.toList_join, List.flatMap_map,
    List.flatMap_map]
  simp only [String.toList_append]
  rfl

theorem printed_injective : Function.Injective printed := by
  intro fs gs h
  have hlines := lines_printed fs
  rw [h, lines_printed gs] at hlines
  refine (List.map_inj_right fun f g hfg => ?_).mp hlines.symm
  exact render_inj (String.toList_inj.mp hfg)

end Frame

namespace Program

/-- Frames with equal renderings are equal. Compact renderings are lines, of entities as well
as of frames, so a run prints a line for each frame it lists, and which frames these are can
be recovered from what it prints. -/
theorem output_identifies_frames :
    (∀ (format : Json.Format) (f g : Frame), f.render format = g.render format → f = g) ∧
    (∀ f : Frame, '\n' ∉ (f.render .compact).toList) ∧
    (∀ e : Entity, '\n' ∉ (e.render .compact).toList) ∧
    ∃ recover : String → List Frame, ∀ files args file options capture,
      ListsFrames files args .compact file options capture →
      let plain := ByteMask.combine (Settings.effectiveKey options) capture
      let listed := (Frame.allOfBytes plain).frames
      let output := (runOver files args).output
      Text.lines output.toList = listed.map (fun f => (f.render .compact).toList) ∧
        recover output = listed := by
  refine ⟨fun _ _ _ => Frame.render_inj, fun f => Json.line_feed_not_mem_render f.document,
    fun e => Json.line_feed_not_mem_render e.document, Function.invFun Frame.printed, ?_⟩
  intro files args file options capture h plain listed output
  have houtput : output = Frame.printed listed := by
    change (runOver files args).output = _
    rw [h.runOver_eq, frames, Progress.outcome, List.map_map]
    rfl
  rw [houtput]
  exact ⟨Frame.lines_printed listed, Function.leftInverse_invFun Frame.printed_injective listed⟩

open Program.Sample in
/-- Two frames on two lines, and two reasons with one code. -/
theorem output_identifies_frames_broken :
    (∃ recover : String → List Frame,
      recover (runOver plainFiles ["frames", "masked"]).output = [.done 9, .accept 2 3]) ∧
    Text.lines (runOver plainFiles ["frames", "masked"]).output.toList =
      [Frame.done 9, .accept 2 3].map (fun f => (f.render .compact).toList) ∧
    (Frame.cancel 7 .closed).render .compact ≠ (Frame.cancel 7 (.unknown 1)).render .compact := by
  obtain ⟨hinj, -, -, recover, hruns⟩ := output_identifies_frames
  have hlisted : (Frame.allOfBytes (ByteMask.combine (Settings.effectiveKey "")
      Stream.Sample.broken)).frames = [.done 9, .accept 2 3] := by
    rw [show Settings.effectiveKey "" = 0 from rfl, ByteMask.combine_zero]
    exact Stream.Sample.runs_broken.contents.1
  obtain ⟨hlines, hrecover⟩ := hruns _ _ _ _ _ listsFrames_plain
  rw [hlisted] at hlines hrecover
  refine ⟨⟨recover, hrecover⟩, hlines, fun h => ?_⟩
  cases hinj _ _ _ h

end Program

end WireCapture
