import WireCapture.Proofs.CutCapture
import WireCapture.Proofs.DepthLimit

/-!
# More bytes

An unexpected end says how many bytes one field needs and how many are left for it. Both
numbers are meant: as long as further bytes do not make up the difference, decoding ends
at the same place with the same fault, in which the further bytes count as left. What was
read in front of that field is not read differently, so a failure also keeps the same
part of an entity.
-/
namespace WireCapture

open Scanning Faulty

/-- Of `needed` bytes only `remaining` are there. As long as what follows the data is shorter
than what is missing, `answer` holds of what follows and of the bytes that are left then. -/
structure Shortfall (data : Bytes) (needed remaining : Nat) (answer : Bytes → Nat → Prop) :
    Prop where
  short : remaining < needed
  present : remaining ≤ data.length
  stays : ∀ more : Bytes, more.length < needed - remaining →
    answer more (remaining + more.length)

theorem Shortfall.mono {data whole : Bytes} {needed remaining : Nat}
    {answer answer' : Bytes → Nat → Prop} (h : Shortfall data needed remaining answer)
    (hwhole : data.length ≤ whole.length)
    (hanswer : ∀ more left, answer more left → answer' more left) :
    Shortfall whole needed remaining answer' :=
  ⟨h.short, Nat.le_trans h.present hwhole, fun more hmore => hanswer _ _ (h.stays more hmore)⟩

/-- What ends too early stays where it is until enough bytes follow. -/
theorem Streams.shortfall {ε σ α Λ : Type} [Scanning σ Λ] [Faulty ε] {m : EStateM ε σ α}
    (h : Streams m) (pos : Nat) (bs : Bytes) (log : Λ) {t : σ} {e : ε} {needed remaining : Nat}
    (hm : m (place ⟨pos, bs⟩ log) = .error e t)
    (he : fault e = .unexpectedEnd needed remaining) :
    ∃ skip log', t = place ⟨pos + skip, bs.drop skip⟩ log' ∧
      Shortfall bs needed remaining fun more left =>
        ∃ e', m (place ⟨pos, bs ++ more⟩ log) =
            .error e' (place ⟨pos + skip, bs.drop skip ++ more⟩ log') ∧
          fault e' = .unexpectedEnd needed left := by
  rcases h bs with ⟨used, rest, x, rfl, hd⟩ | hs
  · obtain ⟨note, hnote⟩ := hd.settles
    rw [hnote] at hm
    cases x with
    | ok a => cases hm
    | error e' =>
        cases hm
        have hproper := hd.proper e rfl
        rw [he] at hproper
        cases hproper
  · obtain ⟨blame, needed', remaining', skip, hblame, hlt, hle, hskip, note, hfail⟩ := hs
    have hnone := hfail pos [] log (Nat.sub_pos_of_lt hlt)
    rw [List.append_nil, hm] at hnone
    cases hnone
    cases (hblame _).symm.trans he
    refine ⟨skip, note pos log, rfl, hlt, hle, fun more hmore => ?_⟩
    rw [← List.drop_append_of_le_length hskip]
    exact ⟨_, hfail pos more log hmore, hblame _⟩

/-- The session over a capture with further bytes at its end. -/
def Session.followedBy (s : Session) (more : Bytes) : Session :=
  { s with cursor := ⟨s.cursor.pos, s.cursor.rest ++ more⟩ }

namespace Cursor.Passes

variable {c c' : Cursor} {used : Bytes}

theorem pos_le (h : c.Passes used c') : c.pos ≤ c'.pos := h.pos ▸ Nat.le_add_right _ _

theorem total (h : c.Passes used c') : c'.pos + c'.remaining = c.pos + c.remaining := by
  rw [remaining, remaining, h.rest, h.pos, List.length_append, Nat.add_assoc]

theorem remaining_le (h : c.Passes used c') : c'.remaining ≤ c.remaining := by
  have hpos := h.pos_le
  have htotal := h.total
  omega

end Cursor.Passes

namespace Decoder

section Parts

variable {α : Type} {d : Decoder α} {s t : Session}

theorem exists_passes (h : Streams d) (s : Session) :
    ∃ used, s.cursor.Passes used (stop (d s)).cursor := by
  obtain ⟨⟨pos, bs⟩, log⟩ := s
  rcases h bs with ⟨used, rest, x, rfl, hd⟩ | hs
  · obtain ⟨note, hnote⟩ := hd.settles
    have hx := hnote pos rest log
    change d ⟨⟨pos, used ++ rest⟩, log⟩ = _ at hx
    rw [hx]
    cases x <;> exact ⟨used, rfl, rfl⟩
  · obtain ⟨blame, needed, remaining, skip, _, hlt, _, hskip, note, hfail⟩ := hs
    have hnone := hfail pos [] log (Nat.sub_pos_of_lt hlt)
    rw [List.append_nil] at hnone
    change d ⟨⟨pos, bs⟩, log⟩ = _ at hnone
    rw [hnone]
    refine ⟨bs.take skip, (List.take_append_drop skip bs).symm, ?_⟩
    rw [List.length_take_of_le hskip]
    rfl

theorem exists_passes_of_ok (h : Streams d) {a : α} (hd : d s = .ok a t) :
    ∃ used, s.cursor.Passes used t.cursor := by
  have hstop := exists_passes h s
  rwa [hd] at hstop

/-- What was read is read in front of further bytes too. -/
theorem ok_followedBy (h : Streams d) {a : α} (hd : d s = .ok a t) (more : Bytes) :
    d (s.followedBy more) = .ok a (t.followedBy more) := by
  obtain ⟨⟨pos, bs⟩, log⟩ := s
  rcases h bs with ⟨used, rest, x, rfl, hx⟩ | hs
  · obtain ⟨note, hnote⟩ := hx.settles
    have hrest := hnote pos rest log
    change d ⟨⟨pos, used ++ rest⟩, log⟩ = _ at hrest
    rw [hd] at hrest
    cases x with
    | error e => cases hrest
    | ok b =>
        cases hrest
        have hmore := hnote pos (rest ++ more) log
        rw [← List.append_assoc] at hmore
        exact hmore
  · obtain ⟨blame, needed, remaining, skip, _, hlt, _, _, note, hfail⟩ := hs
    have hnone := hfail pos [] log (Nat.sub_pos_of_lt hlt)
    rw [List.append_nil] at hnone
    change d ⟨⟨pos, bs⟩, log⟩ = _ at hnone
    rw [hd] at hnone
    cases hnone

theorem shortfall_followedBy (h : Streams d) {f : DecodeFailure} {needed remaining : Nat}
    (hd : d s = .error f t) (hf : f.fault = .unexpectedEnd needed remaining) :
    Shortfall s.cursor.rest needed remaining fun more left =>
      ∃ g, d (s.followedBy more) = .error g (t.followedBy more) ∧
        g.fault = .unexpectedEnd needed left := by
  obtain ⟨_, _, rfl, hshort⟩ := h.shortfall s.cursor.pos s.cursor.rest s.visits hd hf
  exact hshort

variable {step : Decoder Entity} {es : List Entity}

theorem Steps.exists_passes (hstep : Streams step) (h : Steps step s es t) :
    ∃ used, s.cursor.Passes used t.cursor := by
  induction h with
  | nil s => exact ⟨[], rfl, rfl⟩
  | cons hs _ ih =>
      obtain ⟨used, hfirst⟩ := exists_passes_of_ok hstep hs
      obtain ⟨more, hrest⟩ := ih
      exact ⟨used ++ more, hfirst.trans hrest⟩

theorem Steps.followedBy (hstep : Streams step) (h : Steps step s es t) (more : Bytes) :
    Steps step (s.followedBy more) es (t.followedBy more) := by
  induction h with
  | nil s => exact .nil _
  | cons hs _ ih => exact .cons (ok_followedBy hstep hs more) ih

end Parts

section Tree

variable {rules : DecodeRules}

theorem streams_recordOf (hk : rules.types.OfKinds) (level : Nat) (tag : Tag) :
    Streams (recordOf rules level tag) := by
  unfold recordOf
  cases hl : rules.types.lookup tag with
  | error e =>
      refine Streams.throw (e := (⟨e, none⟩ : DecodeFailure)) ?_
      rw [TagRegistry.lookup_fault hl]
      rfl
  | ok read =>
      change Streams (enter tag level >>= fun _ => lift (read level))
      exact (streams_enter tag level).bind fun _ => streams_lift (hk.streams hl level)

theorem streams_childStep (hk : rules.types.OfKinds) (room : Nat) (version : UInt16) :
    Streams (childStep rules room version) := by
  cases room with
  | zero => exact .throw rfl
  | succ room =>
      rw [childStep_succ]
      exact (streams_lift (streams_introducer rules.objects version)).bind (streams_within hk room)

variable {room : Nat} {tag : Tag} {s t : Session} {needed remaining : Nat}
  {kept : Option Entity}

/-- A failure for want of bytes stays, and keeps the same part of the entity: the record
and the children before the step that fails are read as before. -/
theorem within_shortfall (hk : rules.types.OfKinds)
    (h : within rules room tag s = .error ⟨.unexpectedEnd needed remaining, kept⟩ t) :
    Shortfall s.cursor.rest needed remaining fun more left =>
      within rules room tag (s.followedBy more) =
        .error ⟨.unexpectedEnd needed left, kept⟩ (t.followedBy more) := by
  have hrecord := streams_recordOf hk (rules.limit - room) tag
  rcases within_eq_error.mp h with hr | ⟨own, u, es, v, g, hr, hs, hl, hg, hf⟩
  · refine (shortfall_followedBy hrecord hr rfl).mono (Nat.le_refl _) ?_
    intro more left hmore
    obtain ⟨⟨fault, kept'⟩, hr', rfl⟩ := hmore
    obtain rfl : kept = none := recordOf_keeps_nothing hr
    obtain rfl : kept' = none := recordOf_keeps_nothing hr'
    exact within_eq_error.mpr (.inl hr')
  · obtain ⟨hfault, hkept⟩ := DecodeFailure.mk.inj hf
    have hchild := streams_childStep hk room own.version
    obtain ⟨_, hfront⟩ := exists_passes_of_ok hrecord hr
    obtain ⟨_, hchildren⟩ := hs.exists_passes hchild
    refine (shortfall_followedBy hchild hg hfault.symm).mono
      (hfront.trans hchildren).remaining_le ?_
    intro more left hmore
    obtain ⟨g', hg', hfault'⟩ := hmore
    rw [← hfault', hkept]
    exact within_eq_error.mpr (.inr ⟨own, _, es, _, g', ok_followedBy hrecord hr more,
      hs.followedBy hchild more, hl, hg', rfl⟩)

theorem run_shortfall (hk : rules.types.OfKinds) {data : Bytes}
    (h : ((ofTag rules tag).run data).result =
      .error ⟨.unexpectedEnd needed remaining, kept⟩) :
    Shortfall data needed remaining fun more left =>
      ((ofTag rules tag).run (data ++ more)).result =
          .error ⟨.unexpectedEnd needed left, kept⟩ ∧
        ((ofTag rules tag).run (data ++ more)).cursor.pos =
          ((ofTag rules tag).run data).cursor.pos := by
  obtain ⟨t, ht⟩ := run_eq_error h
  refine (within_shortfall hk ht).mono (Nat.le_refl _) ?_
  intro more left hmore
  change ofTag rules tag ⟨.ofBytes (data ++ more), []⟩ = _ at hmore
  rw [run_of_error ht, run_of_error hmore]
  exact ⟨rfl, rfl⟩

end Tree

end Decoder

namespace Frame

variable {k : Kind} {data : Bytes} {needed remaining : Nat}

open Reader in
theorem streams_payloadReader (k : Kind) : Streams (payloadReader k) := by
  cases k with
  | start =>
      refine streams_u8.bind fun _ => streams_u8.bind fun _ => streams_u32.bind fun _ => ?_
      refine (streams_take nameWidth).map.bind fun _ => streams_u8.bind fun _ => ?_
      exact (streams_take 3).bind fun _ => .pure _
  | accept => exact streams_u8.bind fun _ => streams_u8.bind fun _ => .pure _
  | data =>
      refine streams_u8.bind fun _ => streams_u8.bind fun _ => streams_u16.bind fun _ => ?_
      refine streams_u16.bind fun length => (streams_take length.toNat).bind fun _ => .pure _
  | ack =>
      exact streams_u8.bind fun _ => streams_u8.bind fun _ => streams_u16.bind fun _ => .pure _
  | done => exact streams_u8.map
  | cancel => exact streams_u8.bind fun _ => streams_u8.bind fun _ => .pure _
  | abort => exact streams_u8.bind fun _ => streams_u8.bind fun _ => .pure _

theorem ofPayload_eq_error_iff {e : Fault} :
    ofPayload k data = .error e ↔ ∃ c, payloadReader k (.ofBytes data) = .error e c := by
  unfold ofPayload
  split <;> simp_all

theorem ofPayload_shortfall (h : ofPayload k data = .error (.unexpectedEnd needed remaining)) :
    Shortfall data needed remaining fun more left =>
      ofPayload k (data ++ more) = .error (.unexpectedEnd needed left) := by
  obtain ⟨c, hc⟩ := ofPayload_eq_error_iff.mp h
  obtain ⟨_, _, _, hshort⟩ :=
    (streams_payloadReader k).shortfall 0 data () hc rfl
  refine hshort.mono (Nat.le_refl _) ?_
  intro more left hmore
  obtain ⟨_, hmore, rfl⟩ := hmore
  exact ofPayload_eq_error_iff.mpr ⟨_, hmore⟩

theorem ofBytes_cons_eq_error_iff {e : Fault} :
    ofBytes (k.opcode :: data) = .error e ↔ ofPayload k data = .error e := by
  simp only [ofBytes, Kind.ofOpcode?_opcode]
  split <;> simp_all

theorem ofBytes_shortfall (h : ofBytes data = .error (.unexpectedEnd needed remaining)) :
    Shortfall data needed remaining fun more left =>
      ofBytes (data ++ more) = .error (.unexpectedEnd needed left) := by
  cases data with
  | nil =>
      cases h
      refine ⟨Nat.zero_lt_one, Nat.le_refl 0, fun more hmore => ?_⟩
      obtain rfl : more = [] := List.length_eq_zero_iff.mp (Nat.lt_one_iff.mp hmore)
      rfl
  | cons code payload =>
      cases hcode : Kind.ofOpcode? code with
      | none =>
          rw [ofBytes_unknown hcode] at h
          cases h
      | some k =>
          obtain rfl := Kind.opcode_of_ofOpcode? hcode
          have hpayload := ofPayload_shortfall (ofBytes_cons_eq_error_iff.mp h)
          refine hpayload.mono (Nat.le_succ payload.length) ?_
          exact fun more left hmore => ofBytes_cons_eq_error_iff.mpr hmore

end Frame

/-- The numbers of an unexpected end state a true shortfall: no fewer bytes than are missing
change the fault, the part of the entity that is kept or the place where decoding ends. -/
theorem unexpectedEnd_shortfall (data : Bytes) :
    (∀ (objects : ObjectMapping) (limit : Nat) (tag : Tag) (needed remaining : Nat)
        (kept : Option Entity),
      ((Decoder.ofTag { objects, limit } tag).run data).result =
          .error ⟨.unexpectedEnd needed remaining, kept⟩ →
        Shortfall data needed remaining fun more left =>
          ((Decoder.ofTag { objects, limit } tag).run (data ++ more)).result =
              .error ⟨.unexpectedEnd needed left, kept⟩ ∧
            ((Decoder.ofTag { objects, limit } tag).run (data ++ more)).cursor.pos =
              ((Decoder.ofTag { objects, limit } tag).run data).cursor.pos) ∧
    ∀ needed remaining : Nat, Frame.ofBytes data = .error (.unexpectedEnd needed remaining) →
      Shortfall data needed remaining fun more left =>
        Frame.ofBytes (data ++ more) = .error (.unexpectedEnd needed left) :=
  ⟨fun _ _ _ _ _ _ => Decoder.run_shortfall TagRegistry.standard_ofKinds,
    fun _ _ => Frame.ofBytes_shortfall⟩

/-- The capture cut off in the middle of the last name. -/
def Sample.cutCapture : Bytes := brokenCapture.take 47

open Sample in
/-- Two of four bytes of a name, and one of three bytes of a chunk; one byte more helps
neither. -/
theorem unexpectedEnd_shortfall_name_and_chunk :
    ((Decoder.ofTag { objects, limit := 1 } TagRegistry.defaultTag).run cutCapture).result =
      .error ⟨.unexpectedEnd 4 2, some (.node crate [.node dust []])⟩ ∧
    (∀ more : Bytes, more.length < 2 →
      ((Decoder.ofTag { objects, limit := 1 } TagRegistry.defaultTag).run
          (cutCapture ++ more)).result =
        .error ⟨.unexpectedEnd 4 (2 + more.length), some (.node crate [.node dust []])⟩ ∧
      ((Decoder.ofTag { objects, limit := 1 } TagRegistry.defaultTag).run
        (cutCapture ++ more)).cursor.pos = 44) ∧
    Frame.ofBytes [2, 9, 1, 7, 0, 3, 0, 65] = .error (.unexpectedEnd 3 1) ∧
    ∀ byte, Frame.ofBytes [2, 9, 1, 7, 0, 3, 0, 65, byte] = .error (.unexpectedEnd 3 2) := by
  have hrun : ((Decoder.ofTag { objects, limit := 1 } TagRegistry.defaultTag).run
        cutCapture).result =
          .error ⟨.unexpectedEnd 4 2, some (.node crate [.node dust []])⟩ ∧
      ((Decoder.ofTag { objects, limit := 1 } TagRegistry.defaultTag).run
        cutCapture).cursor.pos = 44 := by
    decide +kernel
  have hchunk : Frame.ofBytes [2, 9, 1, 7, 0, 3, 0, 65] = .error (.unexpectedEnd 3 1) := rfl
  have hname := (unexpectedEnd_shortfall cutCapture).1 _ _ _ _ _ _ hrun.1
  have hdata := (unexpectedEnd_shortfall [2, 9, 1, 7, 0, 3, 0, 65]).2 3 1 hchunk
  rw [hrun.2] at hname
  exact ⟨hrun.1, hname.stays, hchunk, fun byte => hdata.stays [byte] Nat.one_lt_two⟩

end WireCapture
