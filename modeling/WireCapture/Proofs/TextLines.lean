import Mathlib.Data.List.TakeWhile
import WireCapture.Text.Line

/-!
# Lines, fields and blanks

What trimming, splitting at blanks and cutting into lines come to, each said by how the
pieces lie in the text: a trimmed text between two gaps, fields with gaps around them,
lines with their ends. Each of these says exactly what the function for it computes.
-/
namespace WireCapture.Text

/-- Blanks only. -/
def Gap (cs : List Char) : Prop := ∀ c ∈ cs, isBlank c = true

/-- A field: not empty, and without blanks. -/
def Solid (cs : List Char) : Prop := cs ≠ [] ∧ ∀ c ∈ cs, isBlank c = false

/-- No blank at either end. -/
structure Tight (cs : List Char) : Prop where
  head : ∀ c ∈ cs.head?, isBlank c = false
  last : ∀ c ∈ cs.getLast?, isBlank c = false

section Decidable

-- The instances are named: a search may also find one that tries all characters there are.
variable (cs : List Char)

instance : Decidable (Gap cs) := List.decidableBAll (isBlank · = true) cs

instance : Decidable (Solid cs) :=
  @instDecidableAnd _ _ inferInstance (List.decidableBAll (isBlank · = false) cs)

instance : Decidable (Tight cs) :=
  @decidable_of_iff _ ((∀ c ∈ cs.head?, isBlank c = false) ∧ ∀ c ∈ cs.getLast?, isBlank c = false)
    ⟨fun h => ⟨h.1, h.2⟩, fun h => ⟨h.head, h.last⟩⟩
    (@instDecidableAnd _ _ (Option.decidableForallMem _) (Option.decidableForallMem _))

end Decidable

theorem Gap.reverse {g : List Char} (h : Gap g) : Gap g.reverse :=
  fun c hc => h c (List.mem_reverse.mp hc)

theorem Gap.dropWhile {g : List Char} (h : Gap g) : g.dropWhile isBlank = [] :=
  List.dropWhile_eq_nil_iff.mpr h

theorem Solid.tight {cs : List Char} (h : Solid cs) : Tight cs :=
  ⟨fun c hc => h.2 c (List.mem_of_mem_head? hc), fun c hc => h.2 c (List.mem_of_mem_getLast? hc)⟩

/-- The longest front of characters with a property. -/
theorem exists_span (p : Char → Bool) (cs : List Char) : ∃ front back, cs = front ++ back ∧
    (∀ c ∈ front, p c = true) ∧ ∀ c ∈ back.head?, p c = false := by
  refine ⟨cs.takeWhile p, cs.dropWhile p, List.takeWhile_append_dropWhile.symm,
    fun _ hc => List.mem_takeWhile_imp hc, fun c hc => ?_⟩
  have hnot := List.head?_dropWhile_not p cs
  rwa [Option.mem_def.mp hc] at hnot

/-- The longest gap at the end. -/
theorem exists_append_gap (cs : List Char) : ∃ front g, cs = front ++ g ∧ Gap g ∧
    ∀ c ∈ front.getLast?, isBlank c = false := by
  obtain ⟨g, front, hcs, hg, hfront⟩ := exists_span isBlank cs.reverse
  refine ⟨front.reverse, g.reverse, ?_, Gap.reverse hg, by rwa [List.getLast?_reverse]⟩
  rw [← List.reverse_append, ← hcs, List.reverse_reverse]

/-- The second text stands between blanks in the first. -/
inductive Trims : List Char → List Char → Prop
  | between {lead cs trail : List Char} : Gap lead → Tight cs → Gap trail →
      Trims (lead ++ cs ++ trail) cs

theorem trim_gap_append {lead : List Char} (h : Gap lead) (cs : List Char) :
    trim (lead ++ cs) = trim cs := by
  rw [trim, List.dropWhile_append_of_pos h, trim]

theorem trim_append_gap {trail : List Char} (h : Gap trail) (cs : List Char) :
    trim (cs ++ trail) = trim cs := by
  rw [trim, trim, List.dropWhile_append]
  split
  · rename_i hempty
    rw [List.isEmpty_iff.mp hempty, h.dropWhile]
  · rw [List.reverse_append, List.dropWhile_append_of_pos h.reverse]

theorem Tight.trim {cs : List Char} (h : Tight cs) : trim cs = cs := by
  have hdrop : ∀ ds : List Char, (∀ c ∈ ds.head?, isBlank c = false) →
      ds.dropWhile isBlank = ds := by
    intro ds hds
    cases ds with
    | nil => rfl
    | cons c ds => exact List.dropWhile_cons_of_neg (by simp [hds c rfl])
  rw [Text.trim, hdrop cs h.head, hdrop cs.reverse (by rw [List.head?_reverse]; exact h.last),
    List.reverse_reverse]

theorem Trims.trim {cs ds : List Char} (h : Trims cs ds) : trim cs = ds := by
  cases h with
  | between hlead htight htrail =>
      rw [trim_append_gap htrail, trim_gap_append hlead, htight.trim]

theorem exists_trims (cs : List Char) : ∃ ds, Trims cs ds := by
  obtain ⟨lead, body, rfl, hlead, hhead⟩ := exists_span isBlank cs
  obtain ⟨ds, trail, rfl, htrail, hlast⟩ := exists_append_gap body
  have htight : Tight ds := by
    refine ⟨fun c hc => hhead c ?_, hlast⟩
    rw [List.head?_append, Option.mem_def.mp hc]
    rfl
  rw [← List.append_assoc]
  exact ⟨ds, .between hlead htight htrail⟩

theorem trims_iff {cs ds : List Char} : Trims cs ds ↔ trim cs = ds := by
  constructor
  · exact Trims.trim
  · rintro rfl
    obtain ⟨ds, h⟩ := exists_trims cs
    rwa [h.trim]

/-- A character that is not blank keeps its place between what trimming leaves of either
side. -/
theorem exists_trim_around {c : Char} (hc : isBlank c = false) (left right : List Char) :
    ∃ left' right', trim (left ++ c :: right) = left' ++ c :: right' ∧ left' <:+ left ∧
      trim left' = trim left ∧ trim right' = trim right := by
  obtain ⟨lead, left', rfl, hlead, hhead⟩ := exists_span isBlank left
  obtain ⟨right', trail, rfl, htrail, hlast⟩ := exists_append_gap right
  have htight : Tight (left' ++ c :: right') := by
    constructor
    · cases left' with
      | nil => simpa using hc
      | cons d left' => exact hhead
    · rw [List.getLast?_append, List.getLast?_cons, Option.some_or]
      cases hright : right'.getLast? with
      | none => simpa using hc
      | some d => simpa using hlast d hright
  refine ⟨left', right', ?_, List.suffix_append lead left', (trim_gap_append hlead left').symm,
    (trim_append_gap htrail right').symm⟩
  have htrims := Trims.between hlead htight htrail
  simpa using htrims.trim

/-- What stands before and after the first `c`. -/
theorem cut?_eq_some_iff {c : Char} {cs before after : List Char} :
    cut? c cs = some (before, after) ↔ cs = before ++ c :: after ∧ c ∉ before := by
  unfold cut?
  constructor
  · intro h
    split at h
    · cases h
    · rename_i d _ hdrop
      cases h
      have hd : d = c := by
        have hnot := List.head?_dropWhile_not (· != c) cs
        rw [hdrop] at hnot
        simpa using hnot
      refine ⟨?_, fun hmem => by simpa using List.mem_takeWhile_imp hmem⟩
      rw [← hd] at hdrop ⊢
      rw [← hdrop, List.takeWhile_append_dropWhile]
  · rintro ⟨rfl, hnot⟩
    have hfront : ∀ d ∈ before, (d != c) = true :=
      fun d hd => bne_iff_ne.mpr fun heq => hnot (heq ▸ hd)
    rw [List.dropWhile_append_of_pos hfront, List.dropWhile_cons_of_neg (by simp),
      List.takeWhile_append_of_pos hfront, List.takeWhile_cons_of_neg (by simp), List.append_nil]

/-- Blank lines and comments: the first character that is not blank is a number sign, if
there is one. -/
def Silent (line : List Char) : Prop := ∀ c ∈ line.find? fun c => !isBlank c, c = '#'

instance (line : List Char) : Decidable (Silent line) := Option.decidableForallMem _

theorem find?_gap_append {g : List Char} (h : Gap g) (cs : List Char) :
    (g ++ cs).find? (fun c => !isBlank c) = cs.find? fun c => !isBlank c := by
  have hnone : g.find? (fun c => !isBlank c) = none := by
    rw [List.find?_eq_none]
    intro c hc
    simp [h c hc]
  rw [List.find?_append, hnone, Option.none_or]

theorem isSilent_trim_iff (line : List Char) : isSilent (trim line) = true ↔ Silent line := by
  obtain ⟨cs, hcs⟩ := exists_trims line
  have hfind : line.find? (fun c => !isBlank c) = cs.head? := by
    cases hcs with
    | between hlead htight htrail =>
        rw [List.append_assoc, find?_gap_append hlead]
        cases cs with
        | nil =>
            have hnone := find?_gap_append htrail []
            rwa [List.append_nil] at hnone
        | cons c cs => exact List.find?_cons_of_pos (by simp [htight.head c rfl])
  rw [hcs.trim, Silent, hfind, isSilent]
  cases cs <;> simp

/-- Fields with blanks around and between them. -/
inductive Laid : List Char → List (List Char) → Prop
  | gap {g : List Char} : Gap g → Laid g []
  | field {g f rest : List Char} {fs : List (List Char)} : Gap g → Solid f →
      (∀ c ∈ rest.head?, isBlank c = true) → Laid rest fs → Laid (g ++ f ++ rest) (f :: fs)

/-- Fields do not go across a blank. -/
theorem fields_append_cons {c : Char} (hc : isBlank c = true) (cs ds : List Char) :
    fields (cs ++ c :: ds) = fields cs ++ fields ds := by
  rw [fields, List.splitOnP_append_cons _ _ hc, List.filter_append, fields, fields]

theorem fields_nil : fields [] = [] := by simp [fields]

theorem fields_gap_append {g : List Char} (h : Gap g) (cs : List Char) :
    fields (g ++ cs) = fields cs := by
  induction g with
  | nil => rfl
  | cons c g ih =>
      have hrest : Gap g := fun d hd => h d (List.mem_cons_of_mem c hd)
      have hsplit := fields_append_cons (h c List.mem_cons_self) [] (g ++ cs)
      rwa [List.nil_append, fields_nil, List.nil_append, ih hrest] at hsplit

theorem Gap.fields {g : List Char} (h : Gap g) : fields g = [] := by
  have happend := fields_gap_append h []
  rwa [List.append_nil, fields_nil] at happend

theorem fields_append_gap {g : List Char} (h : Gap g) (cs : List Char) :
    fields (cs ++ g) = fields cs := by
  cases g with
  | nil => rw [List.append_nil]
  | cons c g =>
      have hrest : Gap g := fun d hd => h d (List.mem_cons_of_mem c hd)
      rw [fields_append_cons (h c List.mem_cons_self), hrest.fields, List.append_nil]

theorem Solid.fields {f : List Char} (h : Solid f) : fields f = [f] := by
  rw [Text.fields, List.splitOnP_eq_singleton h.2]
  simp [h.1]

theorem fields_trim (line : List Char) : fields (trim line) = fields line := by
  obtain ⟨cs, hcs⟩ := exists_trims line
  rw [hcs.trim]
  cases hcs with
  | between hlead _ htrail => rw [fields_append_gap htrail, fields_gap_append hlead]

theorem Laid.fields {line : List Char} {fs : List (List Char)} (h : Laid line fs) :
    fields line = fs := by
  induction h with
  | gap hg => exact hg.fields
  | @field g f rest fs hg hf hrest _ ih =>
      rw [List.append_assoc, fields_gap_append hg]
      cases rest with
      | nil =>
          rw [fields_nil] at ih
          rw [List.append_nil, hf.fields, ih]
      | cons c rest =>
          have hc := hrest c rfl
          have hskip := fields_gap_append (g := [c]) (by simpa [Gap] using hc) rest
          rw [fields_append_cons hc, hf.fields, ← hskip]
          exact congrArg (f :: ·) ih

/-- The gap and the field in front are as long as they can be. -/
theorem exists_laid (line : List Char) : ∃ fs, Laid line fs := by
  generalize hn : line.length = n
  induction n using Nat.strongRecOn generalizing line with
  | ind n ih =>
      subst hn
      obtain ⟨g, body, rfl, hg, hhead⟩ := exists_span isBlank line
      obtain ⟨f, rest, rfl, hf, hrest⟩ := exists_span (fun c => !isBlank c) body
      simp only [Bool.not_eq_true', Bool.not_eq_false'] at hf hrest
      cases f with
      | nil =>
          cases rest with
          | nil => exact ⟨[], .gap (by simpa [Gap] using hg)⟩
          | cons c rest => exact absurd (hrest c rfl) (by simp [hhead c rfl])
      | cons c f =>
          obtain ⟨fs, hfs⟩ := ih rest.length (by simp; omega) rest rfl
          have hlaid := Laid.field hg ⟨List.cons_ne_nil c f, hf⟩ hrest hfs
          rw [List.append_assoc] at hlaid
          exact ⟨_, hlaid⟩

/-- A line with fields is silent if the first of them starts with a number sign. -/
theorem Laid.silent_iff {line f : List Char} {fs : List (List Char)} (h : Laid line (f :: fs)) :
    Silent line ↔ f.head? = some '#' := by
  cases h with
  | field hg hf _ _ =>
      obtain ⟨hne, hsolid⟩ := hf
      cases f with
      | nil => exact absurd rfl hne
      | cons c cs =>
          have hc := hsolid c List.mem_cons_self
          rw [Silent, List.append_assoc, find?_gap_append hg, List.cons_append,
            List.find?_cons_of_pos (by simp [hc])]
          simp

/-- Lines that end in a line feed, with or without a carriage return. The last one may
also end with the text. -/
inductive Lines : List Char → List (List Char) → Prop
  | nil : Lines [] []
  | last {line : List Char} : line ≠ [] → '\n' ∉ line → Lines line [line]
  | feed {line rest : List Char} {ls : List (List Char)} : '\n' ∉ line → Lines rest ls →
      Lines (line ++ '\n' :: rest) (line :: ls)
  | returnFeed {line rest : List Char} {ls : List (List Char)} : '\n' ∉ line → Lines rest ls →
      Lines (line ++ '\r' :: '\n' :: rest) (line :: ls)

theorem lines_append_feed {line : List Char} (h : '\n' ∉ line) (rest : List Char) :
    lines (line ++ '\n' :: rest) = line :: lines rest := by
  induction line with
  | nil => rfl
  | cons c line ih =>
      rw [List.mem_cons, not_or] at h
      have hrest := ih h.2
      rw [lines] at hrest ⊢
      rw [List.cons_append, List.foldr_cons, hrest, lines.step, if_neg (Ne.symm h.1)]

theorem lines_flatMap_feed {ls : List (List Char)} (h : ∀ l ∈ ls, '\n' ∉ l) :
    lines (ls.flatMap (· ++ ['\n'])) = ls := by
  induction ls with
  | nil => rfl
  | cons l ls ih =>
      obtain ⟨hl, hls⟩ := List.forall_mem_cons.mp h
      rw [List.flatMap_cons, List.append_assoc, List.singleton_append, lines_append_feed hl, ih hls]

theorem lines_of_not_mem {line : List Char} (hne : line ≠ []) (h : '\n' ∉ line) :
    lines line = [line] := by
  induction line with
  | nil => exact absurd rfl hne
  | cons c line ih =>
      rw [List.mem_cons, not_or] at h
      cases line with
      | nil => simp [lines, lines.step, Ne.symm h.1]
      | cons d line =>
          have hrest := ih (List.cons_ne_nil d line) h.2
          rw [lines] at hrest ⊢
          rw [List.foldr_cons, hrest, lines.step, if_neg (Ne.symm h.1)]

/-- A carriage return in front of the line feed is a blank at the end of the line. -/
theorem Lines.trimmed {cs : List Char} {ls : List (List Char)} (h : Lines cs ls) :
    (lines cs).map trim = ls.map trim := by
  induction h with
  | nil => rfl
  | last hne hline => rw [lines_of_not_mem hne hline]
  | feed hline _ ih => rw [lines_append_feed hline, List.map_cons, ih, List.map_cons]
  | @returnFeed line rest ls hline _ ih =>
      have hreturn : '\n' ∉ line ++ ['\r'] := by simp [hline]
      have hgap : Gap ['\r'] := by simp [Gap, isBlank]
      rw [← List.singleton_append, ← List.append_assoc, lines_append_feed hreturn, List.map_cons,
        ih, trim_append_gap hgap, List.map_cons]

theorem lines_lines (cs : List Char) : Lines cs (lines cs) := by
  generalize hn : cs.length = n
  induction n using Nat.strongRecOn generalizing cs with
  | ind n ih =>
      subst hn
      by_cases hfeed : '\n' ∈ cs
      · obtain ⟨line, rest, rfl, hline⟩ := List.eq_append_cons_of_mem hfeed
        rw [lines_append_feed hline]
        exact .feed hline (ih _ (by simp; omega) rest rfl)
      · by_cases hne : cs = []
        · subst hne
          exact .nil
        · rw [lines_of_not_mem hne hfeed]
          exact .last hne hfeed

/-- Lines that are put one under the other. -/
theorem lines_flatMap {ls : List (List Char)} (h : ∀ l ∈ ls, '\n' ∉ l) :
    Lines (ls.flatMap (· ++ ['\n'])) ls := by
  induction ls with
  | nil => exact .nil
  | cons l ls ih =>
      obtain ⟨hl, hls⟩ := List.forall_mem_cons.mp h
      rw [List.flatMap_cons, List.append_assoc]
      exact .feed hl (ih hls)

/-- Lines go behind a text that ends with a line. -/
theorem Lines.append {front back : List Char} {before after : List (List Char)}
    (h : Lines front before) (hend : ∀ c ∈ front.getLast?, c = '\n') (hback : Lines back after) :
    Lines (front ++ back) (before ++ after) := by
  have hrest : ∀ line rest : List Char, (∀ c ∈ (line ++ rest).getLast?, c = '\n') →
      ∀ c ∈ rest.getLast?, c = '\n' := by
    intro line rest hlast c hc
    apply hlast c
    rw [List.getLast?_append, Option.mem_def.mp hc, Option.some_or]
    rfl
  induction h with
  | nil => exact hback
  | @last line hne hline =>
      have hmem := List.getLast_mem hne
      rw [hend _ (List.getLast?_eq_some_getLast hne)] at hmem
      exact absurd hmem hline
  | @feed line rest ls hline _ ih =>
      rw [List.append_assoc, List.cons_append]
      exact .feed hline (ih (hrest (line ++ ['\n']) rest (by simpa using hend)))
  | @returnFeed line rest ls hline _ ih =>
      rw [List.append_assoc, List.cons_append, List.cons_append]
      exact .returnFeed hline (ih (hrest (line ++ ['\r', '\n']) rest (by simpa using hend)))

theorem Lines.trimmedLines {text : String} {ls : List (List Char)} (h : Lines text.toList ls) :
    trimmedLines text = ls.map trim := h.trimmed

end WireCapture.Text
