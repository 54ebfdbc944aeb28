import WireCapture.Proofs.CutCapture
import WireCapture.Proofs.FailureReports
import WireCapture.Proofs.LoadedSettings

/-!
# The command for frames

What a run of the tool does that lists the frames of a capture, from its arguments and
files to what it prints. The options give the key, the stream over the unmasked capture
gives the frames and the fault. A run is clean exactly when the unmasked capture consists
of whole frames; otherwise the report names the frame behind those that were printed and
says what is wrong with it.
-/
namespace WireCapture

namespace Frame

variable {e : Fault} {sentence : String}

end Frame

namespace Stream

variable {s : Stream} {marks : List (Frame × Nat)} {fault : Option Fault}

/-- The frames of a run go behind those that are done. -/
theorem Runs.contents_go (h : s.Runs marks fault) (done : List Frame) :
    ∃ offset, contents.go s done = ⟨done.reverse ++ marks.map Prod.fst, fault, offset⟩ := by
  induction marks generalizing s done with
  | nil =>
      obtain ⟨t, hstep⟩ := h.step_of_nil
      rw [List.map_nil, List.append_nil]
      cases fault with
      | none => exact ⟨_, contents_go_of_none hstep⟩
      | some e => exact ⟨_, contents_go_of_fault hstep⟩
  | cons m marks ih =>
      obtain ⟨t, hstep, -, hruns⟩ := h.step_of_cons
      rw [contents_go_of_frame hstep, List.map_cons]
      simpa using ih hruns (m.1 :: done)

/-- Reading all frames at once gives those of the run. -/
theorem Runs.contents (h : s.Runs marks fault) :
    s.contents.frames = marks.map Prod.fst ∧ s.contents.fault = fault := by
  obtain ⟨offset, hgo⟩ := h.contents_go []
  rw [Stream.contents, hgo]
  exact ⟨rfl, rfl⟩

end Stream

namespace Program

variable {files : String → Except ReadFault Bytes}

/-- One run over files that stay as they are. -/
def runOver (files : String → Except ReadFault Bytes) (args : List String) : Outcome :=
  Id.run (run (fun path => pure (files path)) args)

/-- The arguments ask for the frames of a file, under options that load, and the file
holds a capture. -/
structure ListsFrames (files : String → Except ReadFault Bytes) (args : List String)
    (format : Json.Format) (file options : String) (capture : Bytes) : Prop where
  request : ∃ config, CommandLine.parse args = some (.run ⟨config, format, .frames file⟩) ∧
    Configured files config options
  content : files file = .ok capture

variable {args : List String} {format : Json.Format} {file options : String} {capture : Bytes}

theorem ListsFrames.runOver_eq (h : ListsFrames files args format file options capture) :
    runOver files args = (frames format file
      (ByteMask.combine (Settings.effectiveKey options) capture)).outcome := by
  obtain ⟨config, hargs, hconfig⟩ := h.request
  obtain ⟨s, hs, hkey⟩ := exists_settings hconfig
  rw [← hkey, ← Settings.plain_eq_combine]
  simp [runOver, run, hargs, invoke, hs, Command.file, h.content, command]

namespace Sample

def plainFiles (path : String) : Except ReadFault Bytes :=
  if path = "masked" then .ok Stream.Sample.broken else .error .notFound

theorem listsFrames_plain : ListsFrames plainFiles ["frames", "masked"] .compact "masked" ""
    Stream.Sample.broken where
  request := ⟨none, by decide +kernel, .none⟩
  content := by decide +kernel

end Sample

end Program

end WireCapture
