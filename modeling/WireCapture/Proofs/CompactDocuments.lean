import WireCapture.Proofs.PrintedDocuments

/-!
# Compact documents

The compact form of any document, single-precision numbers included, holds no control
character, whatever the strings in it hold. So it is a single line.
-/
namespace WireCapture.Json

/-- No control character. -/
def Visible (cs : List Char) : Prop := ∀ c ∈ cs, 0x20 ≤ c.toNat

instance (cs : List Char) : Decidable (Visible cs) :=
  List.decidableBAll (fun c : Char => 0x20 ≤ c.toNat) cs

theorem visible_append {cs ds : List Char} : Visible (cs ++ ds) ↔ Visible cs ∧ Visible ds :=
  List.forall_mem_append

theorem visible_cons {c : Char} {cs : List Char} :
    Visible (c :: cs) ↔ 0x20 ≤ c.toNat ∧ Visible cs :=
  List.forall_mem_cons

theorem Visible.mono {cs ds : List Char} (h : Visible ds) (hsub : cs ⊆ ds) : Visible cs :=
  fun c hc => h c (hsub hc)

theorem visible_escape (c : Char) : Visible (escape c) := by
  simp only [escape]
  split_ifs with hquote hslash hb hf hn hr ht hcontrol
  any_goals decide
  · have hall : ∀ n < 0x20,
        Visible ['\\', 'u', '0', '0', Nat.digitChar (n / 16), Nat.digitChar (n % 16)] := by
      decide
    exact hall _ hcontrol
  · exact visible_cons.mpr ⟨Nat.le_of_not_lt hcontrol, by decide⟩

theorem visible_quoted (s : String) : Visible (quoted s) := by
  refine visible_append.mpr ⟨visible_cons.mpr ⟨by decide, fun c hc => ?_⟩, by decide⟩
  obtain ⟨d, -, hd⟩ := List.mem_flatMap.mp hc
  exact visible_escape d c hd

theorem visible_toDigits (n : Nat) : Visible (Nat.toDigits 10 n) := by
  intro c hc
  have hdigit := Char.isDigit_iff_toNat.mp (isDigit_of_mem hc)
  exact Nat.le_trans (by decide) hdigit.1

theorem visible_integer (n : Int) : Visible (integer n) := by
  cases n with
  | ofNat n => exact visible_toDigits n
  | negSucc n => exact visible_cons.mpr ⟨by decide, visible_toDigits _⟩

theorem visible_zeros (n : Nat) : Visible (List.replicate n '0') := by
  intro c hc
  rw [List.eq_of_mem_replicate hc]
  decide

theorem visible_positional (d : Decimal) : Visible (positional d) := by
  have hds : Visible d.digits := visible_toDigits _
  simp only [positional]
  split_ifs
  · exact visible_append.mpr ⟨visible_append.mpr ⟨hds, visible_zeros _⟩, by decide⟩
  · exact visible_append.mpr ⟨hds.mono (List.take_subset _ _),
      visible_cons.mpr ⟨by decide, hds.mono (List.drop_subset _ _)⟩⟩
  · exact visible_append.mpr ⟨visible_cons.mpr ⟨by decide,
      visible_cons.mpr ⟨by decide, visible_zeros _⟩⟩, hds⟩

theorem visible_scientific (d : Decimal) : Visible (scientific d) := by
  have hds : Visible d.digits := visible_toDigits _
  simp only [scientific]
  refine visible_append.mpr ⟨?_, visible_cons.mpr ⟨by decide, visible_cons.mpr
    ⟨by split_ifs <;> decide, visible_toDigits _⟩⟩⟩
  split
  · rename_i a b ds heq
    rw [heq, visible_cons] at hds
    exact visible_cons.mpr ⟨hds.1, visible_cons.mpr ⟨by decide, hds.2⟩⟩
  · exact hds

theorem visible_singleText (x : Single) : Visible (singleText x) := by
  have hdecimal : Visible (decimal x.shortest) := by
    rw [decimal]
    split_ifs
    · exact visible_positional _
    · exact visible_scientific _
  rw [singleText]
  split_ifs
  · exact visible_cons.mpr ⟨by decide, hdecimal⟩
  · exact hdecimal
  · decide

section Between

variable {sep : List Char} {ws : List Writer} {rest : List Char}

theorem visible_following (hsep : Visible sep) (hws : ∀ w ∈ ws, ∀ r, Visible r → Visible (w r))
    (hrest : Visible rest) : Visible (ws.foldr (fun w r => sep ++ w r) rest) := by
  induction ws with
  | nil => exact hrest
  | cons w ws ih =>
      obtain ⟨hw, hws⟩ := List.forall_mem_cons.mp hws
      exact visible_append.mpr ⟨hsep, hw _ (ih hws)⟩

theorem visible_between (hsep : Visible sep) (hws : ∀ w ∈ ws, ∀ r, Visible r → Visible (w r))
    (hrest : Visible rest) : Visible (Writer.between sep ws rest) := by
  cases ws with
  | nil => exact hrest
  | cons w ws =>
      obtain ⟨hw, hws⟩ := List.forall_mem_cons.mp hws
      rw [Writer.between_cons]
      exact hw _ (visible_following hsep hws hrest)

end Between

/-- The compact form adds no control character to what stands behind it. -/
theorem visible_compact (j : Json) {rest : List Char} (h : Visible rest) :
    Visible (j.compact rest) := by
  induction j using compact.induct generalizing rest with
  | case1 =>
      rw [compact]
      exact visible_append.mpr ⟨by decide, h⟩
  | case2 b =>
      rw [compact]
      exact visible_append.mpr ⟨by cases b <;> decide, h⟩
  | case3 n =>
      rw [compact]
      exact visible_append.mpr ⟨visible_integer n, h⟩
  | case4 x =>
      rw [compact]
      exact visible_append.mpr ⟨visible_singleText x, h⟩
  | case5 s =>
      rw [compact]
      exact visible_append.mpr ⟨visible_quoted s, h⟩
  | case6 items ih =>
      rw [compact]
      refine visible_cons.mpr ⟨by decide, visible_between (by decide) ?_
        (visible_cons.mpr ⟨by decide, h⟩)⟩
      intro w hw r hr
      obtain ⟨j, hj, rfl⟩ := List.mem_map.mp hw
      exact ih j hj hr
  | case7 fields ih =>
      rw [compact]
      refine visible_cons.mpr ⟨by decide, visible_between (by decide) ?_
        (visible_cons.mpr ⟨by decide, h⟩)⟩
      intro w hw r hr
      obtain ⟨f, hf, rfl⟩ := List.mem_map.mp hw
      exact visible_append.mpr ⟨visible_quoted f.1, visible_cons.mpr ⟨by decide, ih f hf hr⟩⟩

theorem line_feed_not_mem_render (j : Json) : '\n' ∉ (j.render .compact).toList := by
  rw [render, String.toList_ofList]
  intro hmem
  have hvisible := visible_compact j (by decide : Visible []) _ hmem
  exact absurd hvisible (by decide)

end WireCapture.Json
