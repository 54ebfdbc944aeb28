import Mathlib.Data.List.Forall2
import WireCapture.ObjectTable.Listing
import WireCapture.Proofs.Numerals
import WireCapture.Proofs.TextLines

/-!
# Lines of a listing

What a listing is read as, line by line. A line is silent, holds a row or offends in one
of two ways; a listing with no offending line is read as the rows of the others, in their
order, and any other is refused for the first one, whatever stands behind it. Rows that
are written with any blanks around their fields come back.
-/
namespace WireCapture.ObjectTable.Listing

open Text

/-- A line of three fields, the first of which spells the number of the row. -/
def Entry (line : List Char) (row : ObjectRow) : Prop :=
  ∃ id, Laid line [id, row.name.toList, row.tag.text.toList] ∧
    Numeral.Spells 10 id row.id.toNat

/-- What is wrong with a line. The first field is only looked at in a line of three. -/
inductive Offends (line : List Char) : Issue → Prop
  | fieldCount {fs : List (List Char)} : Laid line fs → fs.length ≠ 3 →
      Offends line (.fieldCount fs.length)
  | badId {id name tag : List Char} : Laid line [id, name, tag] →
      (∀ n < UInt16.size, ¬ Numeral.Spells 10 id n) → Offends line (.badId (String.ofList id))

section Line

variable {line : List Char} {row : ObjectRow} {issue : Issue}

theorem Entry.row? (h : Entry line row) : row? line = .ok row := by
  obtain ⟨id, hlaid, hid⟩ := h
  have hdecimal : Numeral.decimal? UInt16.size id = some row.id.toNat :=
    Numeral.decimal?_eq_some_iff.mpr ⟨hid, row.id.toNat_lt⟩
  simp only [Listing.row?, hlaid.fields, hdecimal, UInt16.ofNat_toNat, String.ofList_toList]

theorem Offends.row? (h : Offends line issue) : row? line = .error issue := by
  cases h with
  | fieldCount hlaid hlength =>
      unfold Listing.row?
      rw [hlaid.fields]
      split
      · exact absurd rfl hlength
      · rfl
  | @badId id name tag hlaid hid =>
      simp only [Listing.row?, hlaid.fields, Numeral.decimal?_eq_none_iff.mpr hid]

/-- Every line holds a row or offends. -/
theorem entry_or_offends (line : List Char) :
    (∃ row, Entry line row) ∨ ∃ issue, Offends line issue := by
  obtain ⟨fs, hlaid⟩ := exists_laid line
  by_cases hlength : fs.length = 3
  · obtain ⟨id, name, tag, rfl⟩ := List.length_eq_three.mp hlength
    by_cases hid : ∀ n < UInt16.size, ¬ Numeral.Spells 10 id n
    · exact .inr ⟨_, .badId hlaid hid⟩
    · simp only [not_forall, not_not] at hid
      obtain ⟨n, hlt, hspells⟩ := hid
      refine .inl ⟨⟨UInt16.ofNat n, String.ofList name, ⟨String.ofList tag⟩⟩, id, ?_, ?_⟩
      · simpa using hlaid
      · rwa [UInt16.toNat_ofNat_of_lt' hlt]
  · exact .inr ⟨_, .fieldCount hlaid hlength⟩

theorem row?_eq_ok_iff : row? line = .ok row ↔ Entry line row := by
  refine ⟨fun h => ?_, Entry.row?⟩
  rcases entry_or_offends line with ⟨row', hentry⟩ | ⟨issue, hoffends⟩
  · rw [hentry.row?] at h
    cases h
    exact hentry
  · rw [hoffends.row?] at h
    cases h

theorem row?_eq_error_iff : row? line = .error issue ↔ Offends line issue := by
  refine ⟨fun h => ?_, Offends.row?⟩
  rcases entry_or_offends line with ⟨row', hentry⟩ | ⟨issue', hoffends⟩
  · rw [hentry.row?] at h
    cases h
  · rw [hoffends.row?] at h
    cases h
    exact hoffends

theorem row?_trim (line : List Char) : row? (trim line) = row? line := by
  rw [row?, fields_trim, row?]

end Line

/-- Lines, the first of which has the given number. -/
def parseLines (number : Nat) (lines : List (List Char)) : Except BadLine (List ObjectRow) :=
  (((lines.map trim).zipIdx number).filter fun l => !isSilent l.1).mapM rowAt

theorem parse_eq_parseLines {text : String} {lines : List (List Char)}
    (h : Lines text.toList lines) : parse text = parseLines 1 lines := by
  rw [parse, numbered, h.trimmedLines, parseLines]

section Lines

variable {number : Nat} {line : List Char} {lines : List (List Char)} {row : ObjectRow}
  {issue : Issue}

theorem parseLines_silent (h : Silent line) :
    parseLines number (line :: lines) = parseLines (number + 1) lines := by
  have hsilent := (isSilent_trim_iff line).mpr h
  rw [parseLines, List.map_cons, List.zipIdx_cons, List.filter_cons_of_neg (by simp [hsilent]),
    parseLines]

theorem parseLines_speaking (h : ¬ Silent line) :
    parseLines number (line :: lines) = do
      let row ← rowAt (trim line, number)
      let rows ← parseLines (number + 1) lines
      return row :: rows := by
  have hspeaks : isSilent (trim line) = false := by
    rw [Bool.eq_false_iff, ne_eq, isSilent_trim_iff]
    exact h
  rw [parseLines, List.map_cons, List.zipIdx_cons, List.filter_cons_of_pos (by simp [hspeaks]),
    List.mapM_cons, parseLines]

theorem parseLines_entry (h : ¬ Silent line) (hrow : Entry line row) :
    parseLines number (line :: lines) = (row :: ·) <$> parseLines (number + 1) lines := by
  have hat : rowAt (trim line, number) = .ok row := by
    simp only [rowAt, row?_trim, hrow.row?]
  rw [parseLines_speaking h, hat]
  rfl

theorem parseLines_offends (h : ¬ Silent line) (hissue : Offends line issue) :
    parseLines number (line :: lines) = .error ⟨number, issue⟩ := by
  have hat : rowAt (trim line, number) = .error ⟨number, issue⟩ := by
    simp only [rowAt, row?_trim, hissue.row?]
  rw [parseLines_speaking h, hat]
  rfl

end Lines

/-- Speaking lines are read as their rows. -/
theorem parseLines_of_entries {number : Nat} {lines : List (List Char)} {rows : List ObjectRow}
    (h : List.Forall₂ Entry (lines.filter fun l => ¬ Silent l) rows) :
    parseLines number lines = .ok rows := by
  induction lines generalizing number rows with
  | nil =>
      cases h
      rfl
  | cons line lines ih =>
      by_cases hsilent : Silent line
      · rw [List.filter_cons_of_neg (by simpa using hsilent)] at h
        rw [parseLines_silent hsilent, ih h]
      · rw [List.filter_cons_of_pos (by simpa using hsilent)] at h
        cases h with
        | cons hrow hrows =>
            rw [parseLines_entry hsilent hrow, ih hrows]
            rfl

/-- A line that offends ends the reading, if it is the first one. -/
theorem parseLines_of_offends {number : Nat} {before after : List (List Char)}
    {line : List Char} {issue : Issue} (hbefore : ∀ l ∈ before, Silent l ∨ ∃ row, Entry l row)
    (hsilent : ¬ Silent line) (h : Offends line issue) :
    parseLines number (before ++ line :: after) = .error ⟨number + before.length, issue⟩ := by
  induction before generalizing number with
  | nil => exact parseLines_offends hsilent h
  | cons first before ih =>
      have hrest := @ih (number + 1) fun l hl => hbefore l (List.mem_cons_of_mem first hl)
      rw [List.length_cons, Nat.add_comm before.length, ← Nat.add_assoc]
      by_cases hfirst : Silent first
      · rw [List.cons_append, parseLines_silent hfirst, hrest]
      · obtain ⟨row, hrow⟩ := (hbefore first List.mem_cons_self).resolve_left hfirst
        rw [List.cons_append, parseLines_entry hfirst hrow, hrest]
        rfl

/-- Lines hold rows and nothing else, or one of them is the first that offends. -/
theorem entries_or_offends (lines : List (List Char)) :
    (∃ rows, List.Forall₂ Entry (lines.filter fun l => ¬ Silent l) rows) ∨
    ∃ before line after issue, lines = before ++ line :: after ∧
      (∀ l ∈ before, Silent l ∨ ∃ row, Entry l row) ∧ ¬ Silent line ∧ Offends line issue := by
  induction lines with
  | nil => exact .inl ⟨[], .nil⟩
  | cons first lines ih =>
      by_cases hsilent : Silent first
      · rcases ih with ⟨rows, hrows⟩ | ⟨before, line, after, issue, rfl, hbefore, h⟩
        · refine .inl ⟨rows, ?_⟩
          rwa [List.filter_cons_of_neg (by simpa using hsilent)]
        · refine .inr ⟨first :: before, line, after, issue, rfl, ?_, h⟩
          exact List.forall_mem_cons.mpr ⟨.inl hsilent, hbefore⟩
      · rcases entry_or_offends first with ⟨row, hrow⟩ | ⟨issue, hissue⟩
        · rcases ih with ⟨rows, hrows⟩ | ⟨before, line, after, issue, rfl, hbefore, h⟩
          · refine .inl ⟨row :: rows, ?_⟩
            rw [List.filter_cons_of_pos (by simpa using hsilent)]
            exact .cons hrow hrows
          · refine .inr ⟨first :: before, line, after, issue, rfl, ?_, h⟩
            exact List.forall_mem_cons.mpr ⟨.inr ⟨row, hrow⟩, hbefore⟩
        · exact .inr ⟨[], first, lines, issue, rfl, by simp, hsilent, hissue⟩

theorem exists_entries_iff {lines : List (List Char)} :
    (∃ rows, List.Forall₂ Entry (lines.filter fun l => ¬ Silent l) rows) ↔
      ∀ line ∈ lines, Silent line ∨ ∃ row, Entry line row := by
  induction lines with
  | nil => simp
  | cons line lines ih =>
      rw [List.forall_mem_cons, ← ih]
      by_cases hsilent : Silent line
      · rw [List.filter_cons_of_neg (by simpa using hsilent)]
        simp [hsilent]
      · rw [List.filter_cons_of_pos (by simpa using hsilent)]
        constructor
        · rintro ⟨_, h⟩
          cases h with
          | cons hrow hrows => exact ⟨.inr ⟨_, hrow⟩, _, hrows⟩
        · rintro ⟨hline, rows, hrows⟩
          obtain ⟨row, hrow⟩ := hline.resolve_left hsilent
          exact ⟨row :: rows, .cons hrow hrows⟩

theorem parseLines_eq_ok_iff {number : Nat} {lines : List (List Char)} {rows : List ObjectRow} :
    parseLines number lines = .ok rows ↔
      List.Forall₂ Entry (lines.filter fun l => ¬ Silent l) rows := by
  refine ⟨fun h => ?_, parseLines_of_entries⟩
  rcases entries_or_offends lines with ⟨rows', hrows⟩ | ⟨_, _, _, _, rfl, hbefore, hsilent, hline⟩
  · rw [parseLines_of_entries hrows] at h
    cases h
    exact hrows
  · rw [parseLines_of_offends hbefore hsilent hline] at h
    cases h

theorem parseLines_eq_error_iff {number : Nat} {lines : List (List Char)} {bad : BadLine} :
    parseLines number lines = .error bad ↔ ∃ before line after, lines = before ++ line :: after ∧
      bad.line = number + before.length ∧ (∀ l ∈ before, Silent l ∨ ∃ row, Entry l row) ∧
      ¬ Silent line ∧ Offends line bad.issue := by
  constructor
  · intro h
    rcases entries_or_offends lines with ⟨rows, hrows⟩ | hoffends
    · rw [parseLines_of_entries hrows] at h
      cases h
    · obtain ⟨before, line, after, issue, rfl, hbefore, hsilent, hline⟩ := hoffends
      rw [parseLines_of_offends hbefore hsilent hline] at h
      cases h
      exact ⟨before, line, after, rfl, rfl, hbefore, hsilent, hline⟩
  · rintro ⟨before, line, after, rfl, hnumber, hbefore, hsilent, hline⟩
    rw [parseLines_of_offends hbefore hsilent hline, ← hnumber]

/-- A row whose name and tag can stand between blanks. -/
structure Writable (row : ObjectRow) : Prop where
  name : Solid row.name.toList
  tag : Solid row.tag.text.toList

/-- A line with a row on it. -/
def rowLine (row : ObjectRow) (lead gap₁ gap₂ trail : List Char) : List Char :=
  lead ++ (toString row.id.toNat).toList ++ gap₁ ++ row.name.toList ++ gap₂ ++
    row.tag.text.toList ++ trail

/-- Rows on lines of their own, with silent lines anywhere between them. -/
inductive Written : List ObjectRow → List (List Char) → Prop
  | nil : Written [] []
  | silent {line : List Char} {rows : List ObjectRow} {lines : List (List Char)} :
      Silent line → Written rows lines → Written rows (line :: lines)
  | row {row : ObjectRow} {lead gap₁ gap₂ trail : List Char} {rows : List ObjectRow}
      {lines : List (List Char)} : Writable row → Gap lead → Gap gap₁ → gap₁ ≠ [] →
      Gap gap₂ → gap₂ ≠ [] → Gap trail → Written rows lines →
      Written (row :: rows) (rowLine row lead gap₁ gap₂ trail :: lines)

theorem laid_rowLine {row : ObjectRow} {lead gap₁ gap₂ trail : List Char} (h : Writable row)
    (hlead : Gap lead) (hgap₁ : Gap gap₁) (hne₁ : gap₁ ≠ []) (hgap₂ : Gap gap₂)
    (hne₂ : gap₂ ≠ []) (htrail : Gap trail) : Laid (rowLine row lead gap₁ gap₂ trail)
      [(toString row.id.toNat).toList, row.name.toList, row.tag.text.toList] := by
  have hid := (Numeral.digits_toString row.id.toNat).solid (by decide)
  have hhead : ∀ {g : List Char}, Gap g → g ≠ [] → ∀ rest, ∀ c ∈ (g ++ rest).head?,
      isBlank c = true := by
    intro g hg hne rest c hc
    rw [List.head?_append_of_ne_nil _ hne] at hc
    exact hg c (List.mem_of_mem_head? hc)
  have htag : Laid (gap₂ ++ row.tag.text.toList ++ trail) [row.tag.text.toList] :=
    .field hgap₂ h.tag (fun c hc => htrail c (List.mem_of_mem_head? hc)) (.gap htrail)
  have hname : Laid (gap₁ ++ row.name.toList ++ (gap₂ ++ row.tag.text.toList ++ trail))
      [row.name.toList, row.tag.text.toList] :=
    .field hgap₁ h.name (by rw [List.append_assoc]; exact hhead hgap₂ hne₂ _) htag
  have hall := Laid.field hlead hid
    (by rw [List.append_assoc gap₁]; exact hhead hgap₁ hne₁ _) hname
  simpa only [rowLine, List.append_assoc] using hall

theorem Written.entries {rows : List ObjectRow} {lines : List (List Char)}
    (h : Written rows lines) : List.Forall₂ Entry (lines.filter fun l => ¬ Silent l) rows := by
  induction h with
  | nil => exact .nil
  | silent hsilent _ ih => rwa [List.filter_cons_of_neg (by simpa using hsilent)]
  | @row row lead gap₁ gap₂ trail _ _ hrow hlead hgap₁ hne₁ hgap₂ hne₂ htrail _ ih =>
      have hlaid := laid_rowLine hrow hlead hgap₁ hne₁ hgap₂ hne₂ htrail
      have hdigits := Numeral.digits_toString row.id.toNat
      have hspeaks : ¬ Silent (rowLine row lead gap₁ gap₂ trail) := by
        rw [hlaid.silent_iff]
        intro hhead
        obtain ⟨d, hd⟩ := hdigits.forall_isDigit '#' (List.mem_of_mem_head? hhead)
        exact absurd (hd.bounds (by decide)).1 (by decide)
      rw [List.filter_cons_of_pos (by simpa using hspeaks)]
      exact .cons ⟨_, hlaid, .inl hdigits⟩ ih

/-- A text is read as the rows on its lines, or refused for the first line that offends.
Whatever way rows are written, they come back. -/
theorem parse_by_lines (text : String) :
    (∃ lines, Lines text.toList lines) ∧ ∀ lines, Lines text.toList lines →
      ((∃ rows, parse text = .ok rows) ↔ ∀ line ∈ lines, Silent line ∨ ∃ row, Entry line row) ∧
      (∀ rows, parse text = .ok rows ↔
        List.Forall₂ Entry (lines.filter fun l => ¬ Silent l) rows) ∧
      (∀ bad, parse text = .error bad ↔
        ∃ before line after, lines = before ++ line :: after ∧ bad.line = 1 + before.length ∧
          (∀ l ∈ before, Silent l ∨ ∃ row, Entry l row) ∧ ¬ Silent line ∧
          Offends line bad.issue) ∧
      ∀ rows, Written rows lines → parse text = .ok rows := by
  refine ⟨⟨_, lines_lines _⟩, fun lines hlines => ?_⟩
  rw [parse_eq_parseLines hlines]
  refine ⟨?_, fun rows => parseLines_eq_ok_iff, fun bad => parseLines_eq_error_iff,
    fun rows h => parseLines_of_entries h.entries⟩
  simp only [parseLines_eq_ok_iff]
  exact exists_entries_iff

/-- A table after a comment and an empty line, and one whose third line offends before its
fourth could. -/
theorem parse_by_lines_samples :
    parse "# id name tag\r\n\n 7\tchainmail ArmorXfer \n12 longsword WeaponXfer" =
      .ok [⟨7, "chainmail", ⟨"ArmorXfer"⟩⟩, ⟨12, "longsword", ⟨"WeaponXfer"⟩⟩] ∧
    parse "1 a T\n\nx y\n70000 b T" = .error ⟨3, .fieldCount 2⟩ := by
  constructor
  · let mail : ObjectRow := ⟨7, "chainmail", ⟨"ArmorXfer"⟩⟩
    let sword : ObjectRow := ⟨12, "longsword", ⟨"WeaponXfer"⟩⟩
    let comment := "# id name tag".toList
    let mailLine := rowLine mail [' '] ['\t'] [' '] [' ']
    let swordLine := rowLine sword [] [' '] [' '] []
    have hmail : Writable mail := ⟨by decide +kernel, by decide +kernel⟩
    have hsword : Writable sword := ⟨by decide +kernel, by decide +kernel⟩
    have hgaps : Gap [] ∧ Gap [' '] ∧ Gap ['\t'] := by decide
    obtain ⟨hnone, hspace, htab⟩ := hgaps
    have hwritten : Written [mail, sword] [comment, [], mailLine, swordLine] :=
      .silent (by decide +kernel) (.silent (by decide)
        (.row hmail hspace htab (by decide) hspace (by decide) hspace
          (.row hsword hnone hspace (by decide) hspace (by decide) hnone .nil)))
    have hlines : Lines
        (comment ++ '\r' :: '\n' :: ([] ++ '\n' :: (mailLine ++ '\n' :: swordLine)))
        [comment, [], mailLine, swordLine] :=
      .returnFeed (by decide +kernel) (.feed (by decide) (.feed (by decide +kernel)
        (.last (by decide +kernel) (by decide +kernel))))
    refine ((parse_by_lines _).2 _ ?_).2.2.2 _ hwritten
    have htext : "# id name tag\r\n\n 7\tchainmail ArmorXfer \n12 longsword WeaponXfer".toList =
        comment ++ '\r' :: '\n' :: ([] ++ '\n' :: (mailLine ++ '\n' :: swordLine)) := by
      decide +kernel
    rwa [htext]
  · have hlines := lines_lines "1 a T\n\nx y\n70000 b T".toList
    have hcut : lines "1 a T\n\nx y\n70000 b T".toList =
        ["1 a T".toList, [], "x y".toList, "70000 b T".toList] := by decide +kernel
    rw [hcut] at hlines
    refine (((parse_by_lines _).2 _ hlines).2.2.1 _).mpr ⟨["1 a T".toList, []], "x y".toList,
      ["70000 b T".toList], rfl, rfl, ?_, by decide +kernel, row?_eq_error_iff.mp (by decide +kernel)⟩
    have hfirst : Entry "1 a T".toList ⟨1, "a", ⟨"T"⟩⟩ := row?_eq_ok_iff.mp (by decide +kernel)
    have hempty : Silent [] := by decide
    simp only [List.forall_mem_cons, List.not_mem_nil, false_implies, implies_true, and_true]
    exact ⟨.inr ⟨_, hfirst⟩, .inl hempty⟩

end WireCapture.ObjectTable.Listing
