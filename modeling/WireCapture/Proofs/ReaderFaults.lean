import WireCapture.Proofs.ReaderLaws

/-!
# Faults of readers

Which faults a reader can end with. What holds of all faults of its parts holds of the
faults of the whole. The readers of words, texts and runs of bytes fail for one reason
only, that the bytes end too early.
-/
namespace WireCapture.Reader

variable {α β : Type} {P : Fault → Prop} {r : Reader α}

/-- All faults of a reader satisfy `P`. -/
def FaultsIn (P : Fault → Prop) (r : Reader α) : Prop :=
  ∀ c e c', r c = .error e c' → P e

namespace FaultsIn

theorem pure (a : α) : FaultsIn P (Pure.pure a : Reader α) := by
  intro c e c' h
  cases h

theorem throw {e : Fault} (he : P e) : FaultsIn P (MonadExcept.throw e : Reader α) := by
  intro c e' c' h
  cases h
  exact he

theorem mono {Q : Fault → Prop} (h : FaultsIn P r) (hpq : ∀ e, P e → Q e) : FaultsIn Q r :=
  fun c e c' hr => hpq e (h c e c' hr)

theorem ofExcept {x : Except Fault α} (h : ∀ e, x = .error e → P e) :
    FaultsIn P (Reader.ofExcept x) := by
  cases x with
  | ok a => exact .pure a
  | error e => exact .throw (h e rfl)

theorem bind {f : α → Reader β} (h : FaultsIn P r) (k : ∀ a, FaultsIn P (f a)) :
    FaultsIn P (r >>= f) := by
  intro c e c' hb
  rcases bind_eq_error.mp hb with hr | ⟨a, d, _, hf⟩
  · exact h c e c' hr
  · exact k a d e c' hf

theorem map {g : α → β} (h : FaultsIn P r) : FaultsIn P (g <$> r) := by
  rw [map_eq_pure_bind]
  exact h.bind fun a => .pure (g a)

theorem ite {c : Prop} [Decidable c] {r' : Reader α} (h : FaultsIn P r)
    (k : FaultsIn P r') : FaultsIn P (if c then r else r') := by
  split
  · exact h
  · exact k

theorem gated (there : Bool) (h : FaultsIn P r) : FaultsIn P (Reader.gated there r) :=
  .ite h.map (.pure none)

theorem atomic (h : FaultsIn P r) : FaultsIn P (Reader.atomic r) := by
  intro c e c' ha
  unfold Reader.atomic at ha
  split at ha
  · cases ha
  · rename_i hr
    cases ha
    exact h _ _ _ hr

end FaultsIn

/-- All faults of a reader are that the bytes end too early. -/
abbrev OnlyShort (r : Reader α) : Prop := FaultsIn (fun e => e.isUnexpectedEnd = true) r

theorem short_take (n : Nat) : OnlyShort (take n) := fun _ _ _ => take_fault

theorem short_word (width : Nat) : OnlyShort (word width) := (short_take width).map

theorem short_u8 : OnlyShort u8 := (short_word 1).map

theorem short_u16 : OnlyShort u16 := (short_word 2).map

theorem short_u32 : OnlyShort u32 := (short_word 4).map

theorem short_i32 : OnlyShort i32 := short_u32.map

theorem short_single : OnlyShort single := short_u32.map

theorem short_countedText (width : Nat) : OnlyShort (countedText width) :=
  ((short_word width).bind fun n => short_take (n * 1)).atomic.map

end WireCapture.Reader
