import WireCapture.Entity.Decoder

/-!
# What reading takes

Reading looks at no byte that it does not take. `Settles` says that certain bytes
lead to an answer, whatever stands before and after them; `Starves` says that the
bytes end too early, and that fewer further bytes than are missing would not help.
A computation that streams does one or the other on every byte string, and what
it takes to settle cannot be cut short. Readers and decoders are both built from
parts that stream, so the laws are stated once for states of either sort.
-/
namespace WireCapture

/-- States that place a cursor beside a log. -/
class Scanning (σ : Type) (Λ : outParam Type) where
  place : Cursor → Λ → σ

instance : Scanning Cursor Unit := ⟨fun c _ => c⟩

instance : Scanning Session (List Visit) := ⟨Session.mk⟩

/-- Failures that go back to a fault. -/
class Faulty (ε : Type) where
  fault : ε → Fault

instance : Faulty Fault := ⟨id⟩

instance : Faulty DecodeFailure := ⟨DecodeFailure.fault⟩

open Scanning Faulty

variable {ε σ α β : Type}

section Runs

variable {m : EStateM ε σ α} {f : α → EStateM ε σ β} {s t : σ}

theorem bind_of_ok {a : α} (h : m s = .ok a t) : (m >>= f) s = f a t := by
  change EStateM.bind m f s = _
  rw [EStateM.bind, h]

theorem bind_of_error {e : ε} (h : m s = .error e t) : (m >>= f) s = .error e t := by
  change EStateM.bind m f s = _
  rw [EStateM.bind, h]

theorem bind_eq_ok {b : β} : (m >>= f) s = .ok b t ↔ ∃ a u, m s = .ok a u ∧ f a u = .ok b t := by
  cases h : m s with
  | ok a u =>
      rw [bind_of_ok h]
      refine ⟨fun k => ⟨a, u, rfl, k⟩, ?_⟩
      intro h
      obtain ⟨_, _, ⟨⟩, k⟩ := h
      exact k
  | error e u => simp [bind_of_error h]

theorem bind_eq_error {e : ε} : (m >>= f) s = .error e t ↔
    m s = .error e t ∨ ∃ a u, m s = .ok a u ∧ f a u = .error e t := by
  cases h : m s with
  | ok a u =>
      rw [bind_of_ok h]
      refine ⟨fun k => .inr ⟨a, u, rfl, k⟩, ?_⟩
      intro h
      obtain ⟨⟨⟩⟩ | ⟨_, _, ⟨⟩, k⟩ := h
      exact k
  | error e u => simp [bind_of_error h]

theorem map_of_ok {g : α → β} {a : α} (h : m s = .ok a t) : (g <$> m) s = .ok (g a) t := by
  change EStateM.map g m s = _
  rw [EStateM.map, h]

theorem map_of_error {g : α → β} {e : ε} (h : m s = .error e t) :
    (g <$> m) s = .error e t := by
  change EStateM.map g m s = _
  rw [EStateM.map, h]

theorem map_eq_ok {g : α → β} {b : β} :
    (g <$> m) s = .ok b t ↔ ∃ a, m s = .ok a t ∧ g a = b := by
  cases h : m s with
  | ok a u =>
      rw [map_of_ok h]
      constructor
      · intro h
        cases h
        exact ⟨a, rfl, rfl⟩
      · intro h
        obtain ⟨_, ⟨⟩, rfl⟩ := h
        rfl
  | error e u => simp [map_of_error h]

end Runs

/-- An answer at a state. -/
def ending (x : Except ε α) (s : σ) : EStateM.Result ε σ α :=
  match x with
  | .ok a => .ok a s
  | .error e => .error e s

variable {Λ : Type} [Scanning σ Λ]

/-- The bytes `used` lead to the answer `x`, in front of any others. -/
def Settles (m : EStateM ε σ α) (used : Bytes) (x : Except ε α) : Prop :=
  ∃ note : Nat → Λ → Λ, ∀ pos tail log,
    m (place ⟨pos, used ++ tail⟩ log) =
      ending x (place ⟨pos + used.length, tail⟩ (note pos log))

/-- The bytes `used` are read as `a`. -/
abbrev Reads (m : EStateM ε σ α) (used : Bytes) (a : α) : Prop := Settles m used (.ok a)

namespace Settles

variable {m : EStateM ε σ α} {f : α → EStateM ε σ β} {used more : Bytes}

theorem pure (a : α) : Reads (Pure.pure a : EStateM ε σ α) [] a :=
  ⟨fun _ log => log, fun _ _ _ => rfl⟩

theorem throw (e : ε) : Settles (MonadExcept.throw e : EStateM ε σ α) [] (.error e) :=
  ⟨fun _ log => log, fun _ _ _ => rfl⟩

theorem bind {a : α} {x : Except ε β} (h : Reads m used a) (k : Settles (f a) more x) :
    Settles (m >>= f) (used ++ more) x := by
  obtain ⟨note₁, h⟩ := h
  obtain ⟨note₂, k⟩ := k
  refine ⟨fun pos log => note₂ (pos + used.length) (note₁ pos log), ?_⟩
  intro pos tail log
  rw [List.append_assoc, bind_of_ok (h pos (more ++ tail) log), k, List.length_append,
    Nat.add_assoc]

theorem bind_error {e : ε} (h : Settles m used (.error e)) :
    Settles (m >>= f) used (.error e) := by
  obtain ⟨note, h⟩ := h
  exact ⟨note, fun pos tail log => bind_of_error (h pos tail log)⟩

/-- The last part of a sequence. -/
theorem bind_pure {g : α → β} {a : α} {b : β} (h : Reads m used a) (hb : g a = b) :
    Reads (m >>= fun a => Pure.pure (g a)) used b := by
  have hr := h.bind (f := fun a => Pure.pure (g a)) (.pure (g a))
  rw [List.append_nil, hb] at hr
  exact hr

theorem map {g : α → β} {a : α} (h : Reads m used a) : Reads (g <$> m) used (g a) := by
  obtain ⟨note, h⟩ := h
  exact ⟨note, fun pos tail log => map_of_ok (h pos tail log)⟩

end Settles

variable [Faulty ε]

/-- Of `needed` bytes only `remaining` are there. Further bytes that still leave
too few change neither the failure nor the `skip` bytes after which it stands. -/
def StarvesBy (m : EStateM ε σ α) (bs : Bytes) (blame : Fault → ε)
    (needed remaining skip : Nat) : Prop :=
  ∃ note : Nat → Λ → Λ, ∀ pos more log, more.length < needed - remaining →
    m (place ⟨pos, bs ++ more⟩ log) =
      .error (blame (.unexpectedEnd needed (remaining + more.length)))
        (place ⟨pos + skip, (bs ++ more).drop skip⟩ (note pos log))

/-- The bytes end too early. -/
def Starves (m : EStateM ε σ α) (bs : Bytes) : Prop :=
  ∃ blame needed remaining skip, (∀ f, fault (blame f : ε) = f) ∧ remaining < needed ∧
    remaining ≤ bs.length ∧ skip ≤ bs.length ∧ StarvesBy m bs blame needed remaining skip

namespace Starves

variable {m : EStateM ε σ α} {f : α → EStateM ε σ β} {used bs : Bytes}

theorem bind (h : Starves m bs) : Starves (m >>= f) bs := by
  obtain ⟨blame, needed, remaining, skip, hb, hlt, hr, hs, note, h⟩ := h
  refine ⟨blame, needed, remaining, skip, hb, hlt, hr, hs, note, ?_⟩
  intro pos more log hm
  exact bind_of_error (h pos more log hm)

theorem after {a : α} (h : Reads m used a) (k : Starves (f a) bs) :
    Starves (m >>= f) (used ++ bs) := by
  obtain ⟨note₁, h⟩ := h
  obtain ⟨blame, needed, remaining, skip, hb, hlt, hr, hs, note₂, k⟩ := k
  have hl : (used ++ bs).length = used.length + bs.length := List.length_append
  refine ⟨blame, needed, remaining, used.length + skip, hb, hlt, by omega, by omega,
    fun pos log => note₂ (pos + used.length) (note₁ pos log), ?_⟩
  intro pos more log hm
  rw [List.append_assoc, bind_of_ok (h pos (bs ++ more) log), k _ _ _ hm, Nat.add_assoc,
    List.drop_length_add_append]

end Starves

/-- The bytes `used`, and no fewer, lead to the answer `x`. -/
structure Decides (m : EStateM ε σ α) (used : Bytes) (x : Except ε α) : Prop where
  settles : Settles m used x
  cut : ∀ t < used.length, Starves m (used.take t)
  proper : ∀ e, x = .error e → (fault e).isUnexpectedEnd = false

/-- Every byte string begins with bytes that decide, or ends too early. -/
def Streams (m : EStateM ε σ α) : Prop :=
  ∀ bs, (∃ used rest x, bs = used ++ rest ∧ Decides m used x) ∨ Starves m bs

namespace Decides

variable {m : EStateM ε σ α} {f : α → EStateM ε σ β} {used more : Bytes}

theorem proper_of_ok (a : α) :
    ∀ e : ε, Except.ok a = Except.error e → (fault e).isUnexpectedEnd = false := by
  intro e h
  cases h

theorem of_nil {x : Except ε α} (h : Settles m [] x)
    (hp : ∀ e, x = .error e → (fault e).isUnexpectedEnd = false) : Decides m [] x :=
  ⟨h, fun _ ht => absurd ht (Nat.not_lt_zero _), hp⟩

theorem bind {a : α} {x : Except ε β} (h : Decides m used (.ok a))
    (k : Decides (f a) more x) : Decides (m >>= f) (used ++ more) x := by
  refine ⟨h.settles.bind k.settles, ?_, k.proper⟩
  intro t ht
  rw [List.length_append] at ht
  by_cases hlt : t < used.length
  · rw [List.take_append_of_le_length (Nat.le_of_lt hlt)]
    exact (h.cut t hlt).bind
  · rw [List.take_append, List.take_of_length_le (Nat.le_of_not_lt hlt)]
    exact Starves.after h.settles (k.cut (t - used.length) (by omega))

theorem bind_error {e : ε} (h : Decides m used (.error e)) :
    Decides (m >>= f) used (.error e) := by
  refine ⟨h.settles.bind_error, fun t ht => (h.cut t ht).bind, ?_⟩
  intro _ he
  cases he
  exact h.proper e rfl

end Decides

namespace Streams

variable {m : EStateM ε σ α} {f : α → EStateM ε σ β}

theorem pure (a : α) : Streams (Pure.pure a : EStateM ε σ α) := by
  intro bs
  exact .inl ⟨[], bs, .ok a, rfl, .of_nil (.pure a) (Decides.proper_of_ok a)⟩

theorem throw {e : ε} (he : (fault e).isUnexpectedEnd = false) :
    Streams (MonadExcept.throw e : EStateM ε σ α) := by
  intro bs
  refine .inl ⟨[], bs, .error e, rfl, .of_nil (.throw e) ?_⟩
  intro _ h
  cases h
  exact he

theorem bind (h : Streams m) (k : ∀ a, Streams (f a)) : Streams (m >>= f) := by
  intro bs
  rcases h bs with ⟨used, rest, x, rfl, hd⟩ | hs
  · cases x with
    | error e => exact .inl ⟨used, rest, .error e, rfl, hd.bind_error⟩
    | ok a =>
        rcases k a rest with ⟨more, rest, x, rfl, kd⟩ | ks
        · exact .inl ⟨used ++ more, rest, x, (List.append_assoc ..).symm, hd.bind kd⟩
        · exact .inr (.after hd.settles ks)
  · exact .inr hs.bind

theorem map {g : α → β} (h : Streams m) : Streams (g <$> m) := by
  rw [map_eq_pure_bind]
  exact h.bind fun a => .pure (g a)

/-- What changes failures but not their faults streams like the original. -/
theorem transfer {ε' σ' Λ' : Type} [Scanning σ' Λ'] [Faulty ε'] {n : EStateM ε' σ' α}
    {g : ε → ε'} (hg : ∀ e, fault (g e) = fault e)
    (hsettles : ∀ used x, Settles m used x → Settles n used (x.mapError g))
    (hstarves : ∀ bs, Starves m bs → Starves n bs) (h : Streams m) : Streams n := by
  intro bs
  rcases h bs with ⟨used, rest, x, rfl, hd⟩ | hs
  · refine .inl ⟨used, rest, x.mapError g, rfl, hsettles used x hd.settles, ?_, ?_⟩
    · exact fun t ht => hstarves _ (hd.cut t ht)
    · cases x with
      | ok a => exact Decides.proper_of_ok a
      | error e =>
          intro _ he
          cases he
          rw [hg]
          exact hd.proper e rfl
  · exact .inr (hstarves bs hs)

theorem ite {c : Prop} [Decidable c] {n : EStateM ε σ α} (h : Streams m) (k : Streams n) :
    Streams (if c then m else n) := by
  split
  · exact h
  · exact k

end Streams

end WireCapture
