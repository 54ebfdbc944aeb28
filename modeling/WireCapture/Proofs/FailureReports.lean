import WireCapture.Program
import WireCapture.Proofs.Numerals

/-!
# Reports of failures

What stands in the report of a failure: what could not be done in its first line, and
behind it every cause, with a margin in front of the lines that a cause goes on for. A
cause of one line therefore stands there as it is, and the report of a failure with one
such cause is known to the letter.
-/
namespace WireCapture

namespace Program.Failure

variable {margin text cause line : String} {lines : List String}

theorem exists_intercalate (sep : String) (h : line ∈ lines) :
    ∃ before after, sep.intercalate lines = before ++ line ++ after := by
  induction lines with
  | nil => cases h
  | cons first lines ih =>
      by_cases hlines : lines = []
      · subst hlines
        obtain rfl := List.mem_singleton.mp h
        exact ⟨"", "", by simp⟩
      · rw [String.intercalate_cons_of_ne_nil hlines]
        rcases List.mem_cons.mp h with rfl | hmem
        · exact ⟨"", sep ++ sep.intercalate lines, by simp [String.append_assoc]⟩
        · obtain ⟨before, after, heq⟩ := ih hmem
          exact ⟨first ++ sep ++ before, after, by rw [heq]; simp only [String.append_assoc]⟩

theorem exists_causeLine (f : Failure) (h : cause ∈ f.cause :: f.further) :
    ∃ number margin, number ++ indented margin cause ∈ f.causeLines := by
  unfold causeLines
  cases hfurther : f.further with
  | nil =>
      rw [hfurther] at h
      obtain rfl := List.mem_singleton.mp h
      exact ⟨"    ", "    ", List.mem_singleton_self _⟩
  | cons next further =>
      rw [hfurther] at h
      obtain ⟨k, hk⟩ := List.mem_iff_getElem?.mp h
      refine ⟨_, "       ", List.mem_map.mpr ⟨(cause, k), ?_, rfl⟩⟩
      exact List.mk_mem_zipIdx_iff_getElem?.mpr hk

/-- A report begins with what could not be done and names each cause. -/
theorem report_names (f : Failure) (h : cause ∈ f.cause :: f.further) :
    ∃ before margin after, f.report =
      "Error: " ++ f.context ++ "\n\nCaused by:\n" ++ before ++ indented margin cause ++ after := by
  obtain ⟨number, margin, hline⟩ := f.exists_causeLine h
  obtain ⟨before, after, hlines⟩ := exists_intercalate "\n" hline
  refine ⟨before ++ number, margin, after ++ "\n", ?_⟩
  rw [report, hlines]
  simp only [String.append_assoc]

end Program.Failure

end WireCapture
