import WireCapture.Proofs.NestedEntities

/-!
# What a failure keeps

A failure keeps the outermost entity from the moment its record has been read. The
children it keeps are those that were decoded before the step that failed.
-/
namespace WireCapture.Decoder

/-- A failure keeps an entity exactly if the record of the outermost one could be
read. It keeps that record with the children decoded one after the other behind it,
until a step failed with the fault reported or none was allowed. -/
theorem failure_keeps_children_before {objects : ObjectMapping} {limit : Nat} {tag : Tag}
    {data : Bytes} {failure : DecodeFailure}
    (h : ((ofTag { objects, limit } tag).run data).result = .error failure) :
    (failure.kept.isSome = true ↔ ∃ kind own after,
      TagRegistry.standard.lookup tag = .ok (TagRegistry.ofKind kind) ∧
        Record.reader kind (.ofBytes data) = .ok own after) ∧
    ∀ kept, failure.kept = some kept → ∃ kind after,
      TagRegistry.standard.lookup tag = .ok (TagRegistry.ofKind kind) ∧
      Record.reader kind (.ofBytes data) = .ok kept.own after ∧
      kept.sub.length < kept.own.header.subCount.toNat ∧
      (limit = 0 ∧ kept.sub = [] ∧ failure.fault = .nestingTooDeep limit ∨
        ∃ room between broken stop, limit = room + 1 ∧
          Steps (introduced objects kept.own.version (within { objects, limit } room))
            ⟨after, [⟨tag, 0, 0⟩]⟩ kept.sub between ∧
          introduced objects kept.own.version (within { objects, limit } room) between =
            .error broken stop ∧
          broken.fault = failure.fault) := by
  obtain ⟨t, ht⟩ := run_eq_error h
  change within _ limit tag _ = _ at ht
  rcases within_eq_error.mp ht with hr | ⟨own, u, es, v, g, hr, hs, hl, hg, rfl⟩
  · have hk := recordOf_keeps_nothing hr
    refine ⟨?_, fun kept h => by rw [hk] at h; cases h⟩
    rw [hk]
    constructor
    · exact fun h => absurd h Bool.false_ne_true
    · intro hread
      obtain ⟨kind, own, after, hl, hread⟩ := hread
      have hok : recordOf { objects, limit } (limit - limit) tag ⟨.ofBytes data, []⟩ =
          .ok own ⟨after, [⟨tag, 0, limit - limit⟩]⟩ :=
        recordOf_eq_ok.mpr ⟨_, hl, hread, rfl⟩
      rw [hr] at hok
      cases hok
  · obtain ⟨read, hlookup, hread, hvisits⟩ := recordOf_eq_ok.mp hr
    obtain ⟨kind, rfl⟩ := standard_lookup hlookup
    change Record.reader kind (.ofBytes data) = _ at hread
    refine ⟨⟨fun _ => ⟨kind, own, u.cursor, hlookup, hread⟩, fun _ => rfl⟩, ?_⟩
    intro _ hkept
    cases hkept
    refine ⟨kind, u.cursor, hlookup, hread, hl, ?_⟩
    cases limit with
    | zero =>
        cases hs with
        | nil => cases hg; exact .inl ⟨rfl, rfl, rfl⟩
        | cons hstep _ => cases hstep
    | succ room =>
        rw [Nat.sub_self] at hvisits
        have hu : u = ⟨u.cursor, [⟨tag, 0, 0⟩]⟩ := congrArg (Session.mk u.cursor) hvisits
        exact .inr ⟨room, v, g, t, rfl, hu ▸ hs, hg, rfl⟩

open Sample in
theorem failure_keeps_crate_and_dust :
    ((ofTag { objects, limit := 1 } TagRegistry.defaultTag).run brokenCapture).result =
      .error ⟨.noObjectMapping "none", some (.node crate [.node dust []])⟩ ∧
    ∃ kind after between broken stop,
      TagRegistry.standard.lookup TagRegistry.defaultTag = .ok (TagRegistry.ofKind kind) ∧
      Record.reader kind (.ofBytes brokenCapture) = .ok crate after ∧
      Steps (introduced objects 30 (within { objects, limit := 1 } 0))
        ⟨after, [⟨TagRegistry.defaultTag, 0, 0⟩]⟩ [.node dust []] between ∧
      introduced objects 30 (within { objects, limit := 1 } 0) between =
        .error broken stop ∧
      broken.fault = .noObjectMapping "none" := by
  have hrun : ((ofTag { objects, limit := 1 } TagRegistry.defaultTag).run
      brokenCapture).result =
      .error ⟨.noObjectMapping "none", some (.node crate [.node dust []])⟩ := by
    decide +kernel
  obtain ⟨kind, after, hl, hr, _, hstop⟩ := (failure_keeps_children_before hrun).2 _ rfl
  rcases hstop with ⟨h, _⟩ | ⟨_, between, broken, stop, ⟨⟩, hs, hb, hf⟩
  · cases h
  · exact ⟨hrun, kind, after, between, broken, stop, hl, hr, hs, hb, hf⟩

end WireCapture.Decoder
