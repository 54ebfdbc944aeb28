import Mathlib.Data.List.Perm.Basic
import WireCapture.Dictionary
import WireCapture.Proofs.RoutineCalls
import WireCapture.Proofs.Utf8Order

/-!
# Registered tags

What a type registry holds after some registrations: nothing if a tag comes back, which
the first such tag is blamed for, and else each tag with what was registered for it. Its
answers do not depend on the order of the registrations. Routines learn about a registry
by its answers only, so decoding does not depend on this order either.
-/
namespace WireCapture

namespace Tag

/-- The order of the bytes in UTF-8. -/
def Precedes (a b : Tag) : Prop := Text.Utf8.encode a.text < Text.Utf8.encode b.text

theorem le_iff {a b : Tag} : Tag.le a b = true ↔ a.text ≤ b.text := decide_eq_true_iff

theorem pairwise_sort (tags : List Tag) :
    (Tag.sort tags).Pairwise fun a b => Tag.le a b = true := by
  apply List.pairwise_mergeSort
  · intro a b c hab hbc
    exact le_iff.mpr (String.le_trans (le_iff.mp hab) (le_iff.mp hbc))
  · intro a b
    rw [Bool.or_eq_true, le_iff, le_iff]
    exact String.le_total a.text b.text

theorem sort_perm (tags : List Tag) : (Tag.sort tags).Perm tags := List.mergeSort_perm tags _

/-- Different tags that are sorted precede each other. -/
theorem pairwise_precedes_sort {tags : List Tag} (h : tags.Nodup) :
    (Tag.sort tags).Pairwise Precedes := by
  have hne : (Tag.sort tags).Pairwise (· ≠ ·) := (sort_perm tags).nodup_iff.mpr h
  refine ((pairwise_sort tags).and hne).imp fun {a b} hab => ?_
  obtain ⟨hle, hne⟩ := hab
  apply Text.Utf8.encode_lt_encode_iff.mpr
  apply String.not_le.mp
  intro hge
  exact hne (congrArg Tag.mk (String.le_antisymm (le_iff.mp hle) hge))

theorem sort_of_perm {tags tags' : List Tag} (h : tags.Perm tags') :
    Tag.sort tags = Tag.sort tags' := by
  refine List.Perm.eq_of_pairwise ?_ (pairwise_sort tags) (pairwise_sort tags') ?_
  · intro a b _ _ hab hba
    exact congrArg Tag.mk (String.le_antisymm (le_iff.mp hab) (le_iff.mp hba))
  · exact (sort_perm tags).trans (h.trans (sort_perm tags').symm)

end Tag

namespace TagRegistry

variable {δ : Type} {r r' : TagRegistry δ} {entries entries' : List (Tag × δ)} {tag : Tag} {d : δ}

theorem find?_eq_some_iff : r.find? tag = some d ↔ (tag, d) ∈ r.entries := by
  unfold find?
  rw [Option.map_eq_some_iff]
  simp only [find?_key_eq_some_iff r.distinct]
  constructor
  · rintro ⟨e, ⟨he, rfl⟩, rfl⟩
    exact he
  · exact fun h => ⟨_, ⟨h, rfl⟩, rfl⟩

theorem find?_eq_none_iff : r.find? tag = none ↔ tag ∉ r.entries.map Prod.fst := by
  rw [Option.eq_none_iff_forall_ne_some]
  simp [find?_eq_some_iff]

theorem contains_iff : r.contains tag = true ↔ tag ∈ r.entries.map Prod.fst := by
  rw [contains, ← not_iff_not, ← find?_eq_none_iff, Bool.not_eq_true, Option.isSome_eq_false_iff,
    Option.isNone_iff_eq_none]

theorem lookup_eq_ok_iff : r.lookup tag = .ok d ↔ (tag, d) ∈ r.entries := by
  rw [← find?_eq_some_iff]
  unfold lookup
  cases r.find? tag <;> simp

theorem lookup_of_not_mem (h : tag ∉ r.entries.map Prod.fst) :
    r.lookup tag = .error (.unknownType tag) := by
  rw [lookup, find?_eq_none_iff.mpr h]

theorem mem_tags : tag ∈ r.tags ↔ tag ∈ r.entries.map Prod.fst := (Tag.sort_perm _).mem_iff

theorem pairwise_precedes_tags : r.tags.Pairwise Tag.Precedes :=
  Tag.pairwise_precedes_sort r.distinct

/-- The answers do not show the order of the entries. -/
theorem find?_of_perm (h : r'.entries.Perm r.entries) : r'.find? = r.find? := by
  funext tag
  apply Option.ext
  intro d
  rw [find?_eq_some_iff, find?_eq_some_iff, h.mem_iff]

theorem contains_of_perm (h : r'.entries.Perm r.entries) : r'.contains = r.contains := by
  funext tag
  rw [contains, contains, find?_of_perm h]

theorem lookup_of_perm (h : r'.entries.Perm r.entries) : r'.lookup = r.lookup := by
  funext tag
  rw [lookup, lookup, find?_of_perm h]

theorem tags_of_perm (h : r'.entries.Perm r.entries) : r'.tags = r.tags :=
  Tag.sort_of_perm (h.map Prod.fst)

theorem mapping_of_perm (h : r'.entries.Perm r.entries) : r'.mapping = r.mapping := by
  rw [mapping, mapping, contains_of_perm h, lookup_of_perm h, tags_of_perm h]

theorem register_of_mem (h : tag ∈ r.entries.map Prod.fst) :
    r.register tag d = .error ⟨tag⟩ := by
  rw [register, dif_pos h]

theorem register_of_not_mem (h : tag ∉ r.entries.map Prod.fst) :
    ∃ r', r.register tag d = .ok r' ∧ r'.entries = r.entries ++ [(tag, d)] := by
  rw [register, dif_neg h]
  exact ⟨_, rfl, rfl⟩

theorem eq_of_entries (h : r.entries = r'.entries) : r = r' := by
  cases r
  cases r'
  cases h
  rfl

theorem not_nodup_of_mem {before after : List (Tag × δ)} {e : Tag × δ}
    (h : e.1 ∈ before.map Prod.fst) : ¬ ((before ++ e :: after).map Prod.fst).Nodup := by
  rw [List.map_append, List.nodup_append]
  rintro ⟨-, -, hapart⟩
  exact hapart _ h e.1 (by simp) rfl

/-- Registrations behind those of a registry, one after the other. -/
theorem foldlM_register_eq_ok_iff :
    entries.foldlM (fun r e => r.register e.1 e.2) r = .ok r' ↔
      r'.entries = r.entries ++ entries := by
  induction entries generalizing r with
  | nil =>
      rw [List.foldlM_nil, List.append_nil]
      refine ⟨fun h => ?_, fun h => congrArg Except.ok (eq_of_entries h.symm)⟩
      cases h
      rfl
  | cons e entries ih =>
      rw [List.foldlM_cons]
      by_cases h : e.1 ∈ r.entries.map Prod.fst
      · rw [register_of_mem h]
        refine iff_of_false (by rintro ⟨⟩) fun heq => ?_
        exact not_nodup_of_mem h (heq ▸ r'.distinct)
      · obtain ⟨next, hnext, hentries⟩ := register_of_not_mem (d := e.2) h
        rw [hnext]
        change entries.foldlM _ next = _ ↔ _
        rw [ih, hentries, List.append_assoc, List.singleton_append]

theorem foldlM_register_eq_error_iff {f : DuplicateTag} :
    entries.foldlM (fun r e => r.register e.1 e.2) r = .error f ↔
      ∃ before d after, entries = before ++ (f.tag, d) :: after ∧
        ((r.entries ++ before).map Prod.fst).Nodup ∧
        f.tag ∈ (r.entries ++ before).map Prod.fst := by
  induction entries generalizing r with
  | nil =>
      refine iff_of_false (by rintro ⟨⟩) ?_
      rintro ⟨before, d, after, h, -⟩
      simp at h
  | cons e entries ih =>
      rw [List.foldlM_cons]
      by_cases h : e.1 ∈ r.entries.map Prod.fst
      · rw [register_of_mem h]
        constructor
        · rintro ⟨⟩
          refine ⟨[], e.2, entries, rfl, ?_⟩
          rw [List.append_nil]
          exact ⟨r.distinct, h⟩
        · rintro ⟨before, d, after, heq, hnodup, -⟩
          cases before with
          | nil =>
              cases heq
              rfl
          | cons b before =>
              cases heq
              exact absurd hnodup (not_nodup_of_mem h)
      · obtain ⟨next, hnext, hentries⟩ := register_of_not_mem (d := e.2) h
        rw [hnext]
        change entries.foldlM _ next = _ ↔ _
        rw [ih, hentries]
        constructor
        · rintro ⟨before, d, after, rfl, hrest⟩
          refine ⟨e :: before, d, after, rfl, ?_⟩
          rwa [List.append_assoc, List.singleton_append] at hrest
        · rintro ⟨before, d, after, heq, hnodup, hmem⟩
          cases before with
          | nil =>
              cases heq
              rw [List.append_nil] at hmem
              exact absurd hmem h
          | cons b before =>
              cases heq
              refine ⟨before, d, after, rfl, ?_⟩
              rw [List.append_assoc, List.singleton_append]
              exact ⟨hnodup, hmem⟩

theorem ofList_eq_ok_iff : ofList entries = .ok r ↔ r.entries = entries :=
  foldlM_register_eq_ok_iff

theorem ofList_eq_error_iff {f : DuplicateTag} : ofList entries = .error f ↔
    ∃ before d after, entries = before ++ (f.tag, d) :: after ∧
      (before.map Prod.fst).Nodup ∧ f.tag ∈ before.map Prod.fst :=
  foldlM_register_eq_error_iff

theorem exists_ofList_iff :
    (∃ r, ofList entries = .ok r) ↔ (entries.map Prod.fst).Nodup := by
  simp only [ofList_eq_ok_iff]
  constructor
  · rintro ⟨r, rfl⟩
    exact r.distinct
  · exact fun h => ⟨⟨entries, h⟩, rfl⟩

/-- Registrations fail exactly when a tag comes back, and the message names the first such
tag. If none does, each tag is found with what was registered for it, the tags are listed
in the order of their bytes, and another order of the registrations changes no answer.
Neither does it change what is decoded, whatever routines are registered: at no depth of
their calls, and not in the outcome. Record readers always have an outcome, as routines the
same as by levels, and it does not change either. -/
theorem ofList_answers :
    (∀ (δ : Type) (entries : List (Tag × δ)),
      ((∃ f, ofList entries = .error f) ↔ ¬ (entries.map Prod.fst).Nodup) ∧
      (∀ f, ofList entries = .error f ↔
        ∃ (before : List (Tag × δ)) (d : δ) (after : List (Tag × δ)),
          entries = before ++ (f.tag, d) :: after ∧
          (before.map Prod.fst).Nodup ∧ f.tag ∈ before.map Prod.fst) ∧
      (∀ f, ofList entries = .error f →
        f.message = "type tag " ++ f.tag.text ++ " registered twice") ∧
      ∀ r, ofList entries = .ok r →
        (∀ tag, r.contains tag = true ↔ tag ∈ entries.map Prod.fst) ∧
        (∀ tag d, r.lookup tag = .ok d ↔ (tag, d) ∈ entries) ∧
        (∀ tag ∉ entries.map Prod.fst, r.lookup tag = .error (.unknownType tag)) ∧
        r.tags.Pairwise Tag.Precedes ∧
        (∀ tag, tag ∈ r.tags ↔ tag ∈ entries.map Prod.fst) ∧
        ∀ entries' : List (Tag × δ), entries'.Perm entries → ∃ r', ofList entries' = .ok r' ∧
          r'.contains = r.contains ∧ r'.lookup = r.lookup ∧ r'.tags = r.tags) ∧
    (∀ (δ : Type) (routines : δ → Routine δ) (entries entries' : List (Tag × δ))
      (r r' : TagRegistry δ),
      ofList entries = .ok r → ofList entries' = .ok r' → entries'.Perm entries →
      ∀ (objects : ObjectMapping) (level limit : Nat) (type : TypeRef) (data : Bytes),
        let ctx : DecodeContext δ := { types := r.mapping, objects, level, limit }
        let ctx' : DecodeContext δ := { types := r'.mapping, objects, level, limit }
        (∀ beyond depth, (ctx'.decodeAs (Calls.upTo routines beyond depth) type).run data =
          (ctx.decodeAs (Calls.upTo routines beyond depth) type).run data) ∧
        ∀ o, ctx'.Yields routines type data o ↔ ctx.Yields routines type data o) ∧
    ∀ (entries entries' : List (Tag × RecordReader)) (r r' : TagRegistry RecordReader),
      ofList entries = .ok r → ofList entries' = .ok r' → entries'.Perm entries →
      ∀ (objects : ObjectMapping) (limit : Nat) (type : TypeRef) (data : Bytes),
        let outcome := (type.decoder { types := r, objects, limit }).run data
        (type.decoder { types := r', objects, limit }).run data = outcome ∧
        ∀ o, DecodeContext.Yields RecordReader.routine { types := r.mapping, objects, limit }
          type data o ↔ o = outcome := by
  refine ⟨fun δ entries => ⟨?_, fun f => ofList_eq_error_iff, fun _ _ => rfl, ?_⟩, ?_, ?_⟩
  · rw [← exists_ofList_iff]
    cases ofList entries <;> simp
  · intro r hr
    rw [ofList_eq_ok_iff] at hr
    subst hr
    refine ⟨fun _ => contains_iff, fun _ _ => lookup_eq_ok_iff, fun _ => lookup_of_not_mem,
      pairwise_precedes_tags, fun _ => mem_tags, ?_⟩
    intro entries' hperm
    have hdistinct : (entries'.map Prod.fst).Nodup := (hperm.map _).nodup_iff.mpr r.distinct
    obtain ⟨r', hr'⟩ := exists_ofList_iff.mpr hdistinct
    have hentries := ofList_eq_ok_iff.mp hr'
    rw [← hentries] at hperm
    exact ⟨r', hr', contains_of_perm hperm, lookup_of_perm hperm, tags_of_perm hperm⟩
  · intro δ routines entries entries' r r' hr hr' hperm objects level limit type data ctx ctx'
    rw [ofList_eq_ok_iff] at hr hr'
    subst hr hr'
    -- All that a routine can learn from the registry is the same.
    have hctx : ctx' = ctx :=
      congrArg (DecodeContext.mk · objects level limit) (mapping_of_perm hperm)
    rw [hctx]
    exact ⟨fun _ _ => rfl, fun _ => Iff.rfl⟩
  · intro entries entries' r r' hr hr' hperm objects limit type data outcome
    rw [ofList_eq_ok_iff] at hr hr'
    subst hr hr'
    refine ⟨?_, fun _ => DecodeContext.yields_records_iff type data⟩
    have hyields : DecodeContext.Yields RecordReader.routine
        { types := r'.mapping, objects, limit } type data _ :=
      DecodeContext.yields_of_records type data
    rw [mapping_of_perm hperm] at hyields
    exact (DecodeContext.yields_records_iff type data).mp hyields

namespace Sample

/-- The names of a routine that counts the tags and of one that leaves it to count them. -/
inductive Clerk
  | census
  | deputy

def censusTag : Tag := ⟨"census"⟩

def deputyTag : Tag := ⟨"deputy"⟩

/-- An entity that shows a number in its version. -/
def showing (n : Nat) : Entity :=
  .node { version := UInt16.ofNat n, header := {}, body := .default } []

def clerks : Clerk → Routine Clerk
  | .census => fun _ ctx => pure (showing ctx.types.tags.length)
  | .deputy => fun call ctx =>
      if ctx.types.contains censusTag then ctx.decode call censusTag
      else throw ⟨.unknownType censusTag, some (showing ctx.level)⟩

def office : List (Tag × Clerk) := [(deputyTag, .deputy), (censusTag, .census)]

theorem yields_office {r : TagRegistry Clerk} (h : ofList office = .ok r) (data : Bytes) :
    DecodeContext.Yields clerks { types := r.mapping, objects := .empty } (.tag deputyTag) data
      ⟨.ok (showing 2), .ofBytes data, [⟨deputyTag, 0, 0⟩, ⟨censusTag, 0, 0⟩]⟩ := by
  obtain ⟨entries, distinct⟩ := r
  obtain rfl : entries = office := ofList_eq_ok_iff.mp h
  have htags : (TagRegistry.mk office distinct).tags.length = 2 := (Tag.sort_perm _).length_eq
  refine ⟨2, fun beyond => ?_⟩
  calc
    _ = DecodeOutcome.mk (.ok (showing (TagRegistry.mk office distinct).tags.length))
          (.ofBytes data) [⟨deputyTag, 0, 0⟩, ⟨censusTag, 0, 0⟩] := rfl
    _ = _ := by rw [htags]

end Sample

open TagRegistry.Sample in
/-- The usual entries back to front, routines that see the registry in either order, and a
sequence in which two tags come back. -/
theorem ofList_answers_samples :
    (∃ r, ofList standard.entries.reverse = .ok r ∧ r.contains weaponTag = true ∧
      r.tags = standard.tags ∧
      ∀ data, ((TypeRef.tag armorTag).decoder { types := r, objects := .empty }).run data =
        ((TypeRef.tag armorTag).decoder { types := standard, objects := .empty }).run data) ∧
    (∃ r, ofList office.reverse = .ok r ∧
      ∀ data, DecodeContext.Yields clerks { types := r.mapping, objects := .empty }
        (.tag deputyTag) data
        ⟨.ok (showing 2), .ofBytes data, [⟨deputyTag, 0, 0⟩, ⟨censusTag, 0, 0⟩]⟩) ∧
    standard.lookup ⟨"weaponxfer"⟩ = .error (.unknownType ⟨"weaponxfer"⟩) ∧
    ∃ f, ofList [((⟨"b"⟩ : Tag), 1), (⟨"a"⟩, 2), (⟨"c"⟩, 3), (⟨"a"⟩, 4), (⟨"b"⟩, 5)] =
      .error f ∧ f.message = "type tag a registered twice" := by
  obtain ⟨hanswers, hroutines, hdecode⟩ := ofList_answers
  have hstandard : ofList standard.entries = .ok standard := ofList_eq_ok_iff.mpr rfl
  obtain ⟨-, -, -, hok⟩ := hanswers RecordReader standard.entries
  obtain ⟨hcontains, -, hunknown, -, -, hperm⟩ := hok _ hstandard
  obtain ⟨r, hr, hsame, -, htags⟩ := hperm _ (List.reverse_perm _)
  obtain ⟨s, hs⟩ : ∃ s, ofList office = .ok s := exists_ofList_iff.mpr (by decide)
  obtain ⟨-, -, -, hoffice⟩ := hanswers Clerk office
  obtain ⟨-, -, -, -, -, hperm⟩ := hoffice _ hs
  obtain ⟨s', hs', -⟩ := hperm _ (List.reverse_perm _)
  refine ⟨⟨r, hr, ?_, htags, fun data => ?_⟩, ⟨s', hs', fun data => ?_⟩,
    hunknown _ (by decide), ?_⟩
  · rw [hsame, hcontains]
    decide
  · exact (hdecode _ _ _ _ hstandard hr (List.reverse_perm _) _ _ _ data).1
  · obtain ⟨-, hyields⟩ :=
      hroutines _ clerks _ _ _ _ hs hs' (List.reverse_perm _) .empty 0 64 (.tag deputyTag) data
    exact (hyields _).mpr (yields_office hs data)
  · obtain ⟨-, herror, hmessage, -⟩ := hanswers Nat
      [(⟨"b"⟩, 1), (⟨"a"⟩, 2), (⟨"c"⟩, 3), (⟨"a"⟩, 4), (⟨"b"⟩, 5)]
    have hagain := (herror ⟨⟨"a"⟩⟩).mpr
      ⟨[(⟨"b"⟩, 1), (⟨"a"⟩, 2), (⟨"c"⟩, 3)], 4, [(⟨"b"⟩, 5)], rfl, by decide, by decide⟩
    exact ⟨⟨⟨"a"⟩⟩, hagain, hmessage _ hagain⟩

end TagRegistry

end WireCapture
