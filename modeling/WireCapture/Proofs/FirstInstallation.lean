import WireCapture.Proofs.TypeChoice
import WireCapture.SharedMapping

/-!
# The first installation

What a process sees of the mapping that is used where none is given. The first installation
decides: a query before it is answered as by a table without rows, and every later one as if
the mapping had been given with it. Nothing else that happens can be seen later on.
-/
namespace WireCapture.SharedMapping

section Runs

variable {α : Type} (s : SharedMapping)

/-- The mapping that a step brings. -/
def Step.mapping? : Step α → Option ObjectMapping
  | .install m => some m
  | .use _ => none

theorem step_install_fst (m : ObjectMapping) :
    (s.step (.install m : Step α)).1 = .installed s.installed.isNone := by
  obtain ⟨installed⟩ := s
  cases installed <;> rfl

/-- A step leaves the mapping that is there, or else the one that it brings. -/
theorem step_snd (x : Step α) : (s.step x).2 = ⟨s.installed.or x.mapping?⟩ := by
  obtain ⟨installed⟩ := s
  cases installed with
  | none => cases x <;> rfl
  | some m => cases x <;> rfl

theorem step_snd_eq_self {x : Step α} (h : s.installed.isSome ∨ x.mapping? = none) :
    (s.step x).2 = s := by
  rw [step_snd]
  rcases h with h | h
  · rw [Option.or_of_isSome h]
  · rw [h, Option.or_none]

theorem run_cons (x : Step α) (xs : List (Step α)) :
    s.run (x :: xs) = ((s.step x).1 :: ((s.step x).2.run xs).1, ((s.step x).2.run xs).2) := rfl

theorem run_append (xs ys : List (Step α)) :
    s.run (xs ++ ys) =
      ((s.run xs).1 ++ ((s.run xs).2.run ys).1, ((s.run xs).2.run ys).2) := by
  induction xs generalizing s with
  | nil => rfl
  | cons x xs ih => rw [List.cons_append, run_cons, ih, run_cons, List.cons_append]

theorem length_run (xs : List (Step α)) : (s.run xs).1.length = xs.length := by
  induction xs generalizing s with
  | nil => rfl
  | cons x xs ih => rw [run_cons, List.length_cons, ih, List.length_cons]

/-- A run leaves the mapping that is there, or else the first one that it brings. -/
theorem run_snd (xs : List (Step α)) :
    (s.run xs).2 = ⟨s.installed.or (xs.findSome? Step.mapping?)⟩ := by
  induction xs generalizing s with
  | nil => rw [List.findSome?_nil, Option.or_none]; rfl
  | cons x xs ih =>
      rw [run_cons, ih, step_snd, Option.or_assoc, List.findSome?_cons]
      cases x.mapping? <;> rfl

variable (before after : List (Step α)) (x : Step α)

theorem run_around : (s.run (before ++ x :: after)).1 =
    (s.run before).1 ++ ((s.run before).2.step x).1 ::
      (((s.run before).2.step x).2.run after).1 := by
  rw [run_append, run_cons]

/-- A step is answered by what the steps before it have left. -/
theorem getElem?_run :
    (s.run (before ++ x :: after)).1[before.length]? = some ((s.run before).2.step x).1 := by
  rw [run_around, ← s.length_run before, List.getElem?_append_right (Nat.le_refl _),
    Nat.sub_self, List.getElem?_cons_zero]

/-- A step that leaves no trace can go together with its answer. -/
theorem eraseIdx_run (h : ((s.run before).2.step x).2 = (s.run before).2) :
    (s.run (before ++ x :: after)).1.eraseIdx before.length = (s.run (before ++ after)).1 := by
  rw [run_around, h, run_append, ← s.length_run before,
    List.eraseIdx_append_of_length_le (Nat.le_refl _), Nat.sub_self, List.eraseIdx_cons_zero]

end Runs

/-- What can be asked of a mapping. -/
inductive Query
  | name (name : String)
  | id (id : UInt16)
  | entity (types : TagRegistry RecordReader) (type : TypeRef) (data : Bytes)

inductive Reply
  | tag (tag : Option Tag)
  | outcome (outcome : DecodeOutcome)

/-- The reply to a query, with which a mapping may be given. -/
def Query.reply (given : Option ObjectMapping) (s : SharedMapping) : Query → Reply
  | .name n => .tag ((s.chosen given).byName n)
  | .id i => .tag ((s.chosen given).byId i)
  | .entity types type data => .outcome (s.decode types given type data)

/-- An installation, or a query with which no mapping is given. -/
inductive Request
  | install (m : ObjectMapping)
  | query (q : Query)

def Request.step : Request → Step Reply
  | .install m => .install m
  | .query q => .use fun s => q.reply none s

/-- What a process answers, from its start on. -/
def answers (rs : List Request) : List (Answer Reply) := (initial.run (rs.map Request.step)).1

/-- The answer to a request that stands between others. -/
def answerTo (before : List Request) (r : Request) (after : List Request) :
    Option (Answer Reply) :=
  (answers (before ++ r :: after))[before.length]?

/-- What some requests leave at the start of a process. -/
def stateAfter (rs : List Request) : SharedMapping := (initial.run (rs.map Request.step)).2

/-- No installation among some requests. -/
def Untouched (rs : List Request) : Prop := ∀ m, Request.install m ∉ rs

section Requests

variable {rs front back : List Request} {m : ObjectMapping}

/-- A mapping that is given takes the place of any shared one. -/
theorem Query.reply_none (q : Query) (s s' : SharedMapping) :
    q.reply none s = q.reply (some s.current) s' := by
  cases q <;> rfl

theorem mapping?_step_eq_none_iff {r : Request} :
    r.step.mapping? = none ↔ ∀ m, r ≠ .install m := by
  cases r with
  | install m => exact iff_of_false nofun fun h => h m rfl
  | query q => exact iff_of_true rfl nofun

theorem untouched_iff : Untouched rs ↔ (rs.map Request.step).findSome? Step.mapping? = none := by
  simp only [List.findSome?_eq_none_iff, List.forall_mem_map, mapping?_step_eq_none_iff]
  exact ⟨fun h r hr m heq => h m (heq ▸ hr), fun h m hm => h _ hm m rfl⟩

theorem Untouched.stateAfter_eq (h : Untouched rs) : stateAfter rs = initial := by
  rw [stateAfter, run_snd, untouched_iff.mp h]
  rfl

theorem stateAfter_of_first (h : Untouched front) :
    stateAfter (front ++ .install m :: back) = ⟨some m⟩ := by
  rw [stateAfter, run_snd, List.map_append, List.findSome?_append, untouched_iff.mp h]
  rfl

theorem installed_stateAfter_isSome (h : ¬ Untouched rs) : (stateAfter rs).installed.isSome := by
  rw [stateAfter, run_snd]
  rw [untouched_iff, ← ne_eq, Option.ne_none_iff_isSome] at h
  exact h

theorem answerTo_eq (before after : List Request) (r : Request) :
    answerTo before r after = some ((stateAfter before).step r.step).1 := by
  rw [answerTo, answers, List.map_append, List.map_cons, ← List.length_map Request.step,
    getElem?_run, stateAfter]

theorem eraseIdx_answers {before : List Request} {r : Request} (after : List Request)
    (h : ((stateAfter before).step r.step).2 = stateAfter before) :
    (answers (before ++ r :: after)).eraseIdx before.length = answers (before ++ after) := by
  rw [answers, List.map_append, List.map_cons, ← List.length_map Request.step,
    eraseIdx_run _ _ _ _ h, answers, List.map_append]

/-- The mapping of the first installation is there for good. Only this installation
succeeds; before it a query is answered as by a table without rows, and after it as if the
mapping had been given, whatever mapping is shared where it is given. All other requests can
go, and no other answer changes. -/
theorem first_installation_lasts :
    (∀ before m after, Untouched before →
      answerTo before (.install m) after = some (.installed true)) ∧
    (∀ before m after, ¬ Untouched before →
      answerTo before (.install m) after = some (.installed false)) ∧
    (∀ before q after, Untouched before → ∀ s : SharedMapping,
      answerTo before (.query q) after =
        some (.used (q.reply (some ObjectTable.empty.mapping) s))) ∧
    (∀ front m back q after, Untouched front → ∀ s : SharedMapping,
      answerTo (front ++ .install m :: back) (.query q) after =
        some (.used (q.reply (some m) s))) ∧
    ∀ before r after, (∀ m, r = .install m → ¬ Untouched before) →
      (answers (before ++ r :: after)).eraseIdx before.length = answers (before ++ after) := by
  refine ⟨?_, ?_, ?_, ?_, ?_⟩
  · intro before m after h
    rw [answerTo_eq, Request.step, step_install_fst, h.stateAfter_eq]
    rfl
  · intro before m after h
    have hsome := installed_stateAfter_isSome h
    rw [answerTo_eq, Request.step, step_install_fst, Option.isNone_eq_false_iff.mpr hsome]
  · intro before q after h s
    rw [answerTo_eq, h.stateAfter_eq]
    exact congrArg (some ∘ Answer.used) (q.reply_none initial s)
  · intro front m back q after h s
    rw [answerTo_eq, stateAfter_of_first h]
    exact congrArg (some ∘ Answer.used) (q.reply_none ⟨some m⟩ s)
  · intro before r after h
    apply eraseIdx_answers after
    apply step_snd_eq_self
    cases r with
    | install m => exact .inl (installed_stateAfter_isSome (h m rfl))
    | query q => exact .inr rfl

end Requests

namespace Sample

open Decoder.Sample

def dustMapping : ObjectMapping := dustSettings.table.mapping

def dustQuery (data : Bytes) : Request := .query (.entity .standard (.objectName "dust") data)

end Sample

open WireCapture.Sample SharedMapping.Sample Decoder.Sample in
/-- A name is asked for before the first installation, a capture cannot be decoded after it,
and a second installation is refused; all that does nothing to the last decoding. -/
theorem first_installation_lasts_dust :
    let rs := [.query (.name "dust"), .install dustMapping, dustQuery [], .install .empty,
      dustQuery dustCapture]
    let outcome := (Decoder.ofObjectName { objects := dustMapping } "dust").run dustCapture
    (answers rs)[0]? = some (.used (.tag none)) ∧
    (answers rs)[1]? = some (.installed true) ∧
    (answers rs)[3]? = some (.installed false) ∧
    (answers rs)[4]? = some (.used (.outcome outcome)) ∧
    outcome.result = .ok (.node dust []) ∧
    (answers rs).eraseIdx 2 =
      answers [.query (.name "dust"), .install dustMapping, .install .empty,
        dustQuery dustCapture] := by
  intro rs outcome
  obtain ⟨htaken, hrefused, hbefore, hafter, herase⟩ := first_installation_lasts
  have hquery : Untouched [.query (.name "dust")] := untouched_iff.mpr rfl
  have hfirst : ¬ Untouched [.query (.name "dust"), .install dustMapping, dustQuery []] :=
    fun h => h dustMapping (by simp)
  refine ⟨?_, ?_, ?_, ?_, by decide +kernel, ?_⟩
  · exact hbefore [] (.name "dust") rs.tail (untouched_iff.mpr rfl) initial
  · exact htaken [.query (.name "dust")] dustMapping (rs.drop 2) hquery
  · exact hrefused _ .empty [dustQuery dustCapture] hfirst
  · exact hafter [.query (.name "dust")] dustMapping [dustQuery [], .install .empty] _ []
      hquery initial
  · exact herase [.query (.name "dust"), .install dustMapping] (dustQuery []) (rs.drop 3) nofun

end WireCapture.SharedMapping
