import WireCapture.Proofs.OptionLines

/-!
# Ignored lines

Which lines of an options text are skipped or complained about, said by what stands on
them, and what becomes of the settings without such a line. It can go without a trace,
unless it is a depth that cannot be read: such a line stands for the usual depth, until a
later line gives another one.
-/
namespace WireCapture

open Text

/-- A text, one of its lines, and the text without this line. -/
inductive Text.Drops : List Char → List Char → List Char → Prop
  | feed {front line back : List Char} : (∀ c ∈ front.getLast?, c = '\n') → '\n' ∉ line →
      Drops (front ++ (line ++ '\n' :: back)) line (front ++ back)
  | last {front line : List Char} : (∀ c ∈ front.getLast?, c = '\n') → line ≠ [] →
      '\n' ∉ line → Drops (front ++ line) line front

/-- The keys that settings know. -/
def Settings.keys : List String := ["xorkey", "maxdepth", "loglevel", "objecttypes"]

/-- A line with a depth that is no number or too large for one of 64 bits. -/
def UnreadableDepth (line : List Char) : Prop :=
  ∃ value, IsOption line ("maxdepth", value) ∧
    ∀ n < UInt64.size, ¬ Numeral.Spells 10 value.toList n

/-- A line that sets nothing: a blank one or a comment, one without an equals sign, one
under an unknown key, or one with a value that its key cannot use. -/
inductive Ignored : List Char → Prop
  | silent {line : List Char} : Silent line → Ignored line
  | bare {line : List Char} : '=' ∉ line → Ignored line
  | unknown {line : List Char} {key value : String} : IsOption line (key, value) →
      key ∉ Settings.keys → Ignored line
  | badKey {line : List Char} {value : String} : IsOption line ("xorkey", value) →
      (∀ b : UInt8, ¬ Numeral.SpellsByte value.toList b.toNat) → Ignored line
  | badDepth {line : List Char} : UnreadableDepth line → Ignored line

variable {line : List Char} {o : String × String}

theorem Text.Drops.lines {cs ds : List Char} (h : Drops cs line ds) :
    ∃ before after, Lines cs (before ++ line :: after) ∧ Lines ds (before ++ after) := by
  cases h with
  | @feed front line back hfront hline =>
      have hlines := lines_lines front
      exact ⟨_, _, hlines.append hfront (.feed hline (lines_lines back)),
        hlines.append hfront (lines_lines back)⟩
  | last hfront hne hline =>
      have hlines := lines_lines ds
      refine ⟨_, [], hlines.append hfront (.last hne hline), ?_⟩
      rwa [List.append_nil]

namespace Directive

/-- What is complained about. -/
theorem complaint?_ofPair_isSome_iff : (ofPair o).complaint?.isSome ↔ o.1 ∉ Settings.keys ∨
    o.1 = "xorkey" ∧ keyOf? o.2 = none ∨
    o.1 = "maxdepth" ∧ Numeral.decimal? UInt64.size o.2.toList = none := by
  obtain ⟨key, value⟩ := o
  simp only [ofPair, ofOption, String.ofList_toList]
  split
  · simp only [keyOf?]
    cases Numeral.byte? value.toList <;> simp [complaint?, Settings.keys]
  · cases Numeral.decimal? UInt64.size value.toList <;> simp [complaint?, Settings.keys]
  · simp [complaint?, Settings.keys]
  · simp [complaint?, Settings.keys]
  · rename_i hkey hdepth hlevel hfile
    refine iff_of_true rfl (.inl fun hmem => ?_)
    simp only [Settings.keys, List.mem_cons, List.not_mem_nil, or_false] at hmem
    exact hmem.elim hkey fun h => h.elim hdepth fun h => h.elim hlevel hfile

theorem keyOf?_eq_none_iff {value : String} :
    keyOf? value = none ↔ ∀ b : UInt8, ¬ Numeral.SpellsByte value.toList b.toNat := by
  rw [keyOf?, Option.map_eq_none_iff, Option.eq_none_iff_forall_ne_some]
  exact forall_congr' fun b => not_congr Numeral.byte?_eq_some_iff

end Directive

/-- The lines that set nothing are those that the parser skips or complains about. -/
theorem ignored_iff : Ignored line ↔
    ∀ d, Directive.ofLine? (trim line) = some d → d.complaint?.isSome := by
  rw [ofLine?_trim]
  cases hline : option? line with
  | none =>
      refine iff_of_true ?_ (by simp)
      exact (option?_eq_none_iff.mp hline).elim .silent .bare
  | some o =>
      have ho := option?_eq_some_iff.mp hline
      have hspeaks : ¬ (Silent line ∨ '=' ∉ line) := by simp [← option?_eq_none_iff, hline]
      simp only [Option.map_some, Option.some.injEq, forall_eq',
        Directive.complaint?_ofPair_isSome_iff]
      constructor
      · intro h
        cases h with
        | silent h => exact absurd (.inl h) hspeaks
        | bare h => exact absurd (.inr h) hspeaks
        | unknown h hkey =>
            cases hline.symm.trans h.option?
            exact .inl hkey
        | badKey h hvalue =>
            cases hline.symm.trans h.option?
            exact .inr (.inl ⟨rfl, Directive.keyOf?_eq_none_iff.mpr hvalue⟩)
        | badDepth h =>
            obtain ⟨value, h, hvalue⟩ := h
            cases hline.symm.trans h.option?
            exact .inr (.inr ⟨rfl, Numeral.decimal?_eq_none_iff.mpr hvalue⟩)
      · obtain ⟨key, value⟩ := o
        rintro (hkey | ⟨rfl, hvalue⟩ | ⟨rfl, hvalue⟩)
        · exact .unknown ho hkey
        · exact .badKey ho (Directive.keyOf?_eq_none_iff.mp hvalue)
        · exact .badDepth ⟨value, ho, Numeral.decimal?_eq_none_iff.mp hvalue⟩

section Others

variable {text text' : String} {before after : List (List Char)}

theorem valuesOf_append (key : String) (os os' : List (String × String)) :
    valuesOf key (os ++ os') = valuesOf key os ++ valuesOf key os' := by
  simp [valuesOf]

theorem valuesOf_lines_eq_nil_iff {key : String} {lines : List (List Char)} :
    valuesOf key (lines.filterMap option?) = [] ↔
      ∀ l ∈ lines, ∀ value, ¬ IsOption l (key, value) := by
  simp only [valuesOf, List.map_eq_nil_iff, List.filter_eq_nil_iff, List.mem_filterMap,
    option?_eq_some_iff, decide_eq_true_eq, forall_exists_index, and_imp, Prod.forall]
  constructor
  · intro h l hl value ho
    exact h key value l hl ho rfl
  · rintro h key' value l hl ho rfl
    exact h l hl value ho

namespace Settings

theorem parse_eq_foldl (h : Lines text.toList (before ++ after)) : parse text =
    ((after.filterMap option?).map Directive.ofPair).foldl Directive.apply
      (((before.filterMap option?).map Directive.ofPair).foldl Directive.apply {}) := by
  have hos : HasOptions text ((before ++ after).filterMap option?) :=
    ⟨_, h, options_iff.mpr rfl⟩
  rw [parse, hos.ofText, List.filterMap_append, List.map_append, List.foldl_append]

/-- An ignored line does nothing to any settings, unless it is a depth. -/
theorem apply_of_ignored (h : Ignored line) (hdepth : ¬ UnreadableDepth line)
    (ho : option? line = some o) (s : Settings) : (Directive.ofPair o).apply s = s := by
  rw [Directive.apply_ofPair]
  cases h with
  | silent h => simp [option?_eq_none_iff.mpr (.inl h)] at ho
  | bare h => simp [option?_eq_none_iff.mpr (.inr h)] at ho
  | unknown h hkey =>
      cases ho.symm.trans h.option?
      simp only [keys, List.mem_cons, List.not_mem_nil, or_false, not_or] at hkey
      simp [hkey]
  | badKey h hvalue =>
      cases ho.symm.trans h.option?
      simp [Directive.keyOf?_eq_none_iff.mpr hvalue]
  | badDepth h => exact absurd h hdepth

theorem parse_of_ignored (h : Lines text.toList (before ++ line :: after))
    (h' : Lines text'.toList (before ++ after)) (hline : Ignored line)
    (hdepth : ¬ UnreadableDepth line) : parse text = parse text' := by
  rw [parse_eq_foldl h, parse_eq_foldl h']
  cases ho : option? line with
  | none => rw [List.filterMap_cons_none ho]
  | some o =>
      rw [List.filterMap_cons_some ho, List.map_cons, List.foldl_cons,
        apply_of_ignored hline hdepth ho]

/-- A depth that cannot be read stands for the usual one. -/
theorem parse_of_unreadableDepth (h : Lines text.toList (before ++ line :: after))
    (h' : Lines text'.toList (before ++ after)) (hline : UnreadableDepth line) : parse text =
      { parse text' with
        maxDepth := if valuesOf "maxdepth" (after.filterMap option?) = [] then 64
          else (parse text').maxDepth } := by
  obtain ⟨value, ho, hvalue⟩ := hline
  have hos : HasOptions text
      (before.filterMap option? ++ ("maxdepth", value) :: after.filterMap option?) := by
    refine ⟨_, h, options_iff.mpr ?_⟩
    rw [List.filterMap_append, List.filterMap_cons_some ho.option?]
  have hos' : HasOptions text' (before.filterMap option? ++ after.filterMap option?) :=
    ⟨_, h', options_iff.mpr (List.filterMap_append ..)⟩
  have hother : ∀ key ≠ "maxdepth",
      valuesOf key (before.filterMap option? ++ ("maxdepth", value) :: after.filterMap option?) =
        valuesOf key (before.filterMap option? ++ after.filterMap option?) := by
    intro key hkey
    simp [valuesOf, Ne.symm hkey]
  rw [parse_eq hos, parse_eq hos', hother "xorkey" (by decide), hother "loglevel" (by decide),
    hother "objecttypes" (by decide)]
  simp only [mk.injEq, true_and, and_true]
  have hlast : valuesOf "maxdepth" (("maxdepth", value) :: after.filterMap option?) =
      value :: valuesOf "maxdepth" (after.filterMap option?) := by
    simp [valuesOf]
  rw [valuesOf_append, valuesOf_append, hlast, List.getLast?_append, List.getLast?_append,
    List.getLast?_cons]
  cases hvalues : (valuesOf "maxdepth" (after.filterMap option?)).getLast? with
  | none =>
      have hnil := List.getLast?_eq_none_iff.mp hvalues
      simpa [hnil] using Directive.depthOf_of_not_spells hvalue
  | some last =>
      have hne : valuesOf "maxdepth" (after.filterMap option?) ≠ [] := by
        rintro hnil
        simp [hnil] at hvalues
      simp [hne]

/-- A line that the parser skips or complains about can go, and the settings stay as they
are. Only a depth that cannot be read leaves a trace: the usual depth, unless a later line
is for the depth too. -/
theorem parse_without_ignored :
    (∀ line, Ignored line ↔
      ∀ d, Directive.ofLine? (trim line) = some d → d.complaint?.isSome) ∧
    (∀ cs line ds, Drops cs line ds →
      ∃ before after, Lines cs (before ++ line :: after) ∧ Lines ds (before ++ after)) ∧
    ∀ (text text' : String) (before after : List (List Char)) (line : List Char),
      Lines text.toList (before ++ line :: after) → Lines text'.toList (before ++ after) →
      (Ignored line → ¬ UnreadableDepth line → parse text = parse text') ∧
      (UnreadableDepth line →
        ((∃ later ∈ after, ∃ value, IsOption later ("maxdepth", value)) →
          parse text = parse text') ∧
        ((∀ later ∈ after, ∀ value, ¬ IsOption later ("maxdepth", value)) →
          parse text = { parse text' with maxDepth := 64 })) := by
  refine ⟨fun _ => ignored_iff, fun _ _ _ => Drops.lines, ?_⟩
  intro text text' before after line h h'
  refine ⟨parse_of_ignored h h', fun hline => ⟨?_, fun hlast => ?_⟩⟩
  · rintro ⟨later, hlater, value, ho⟩
    have hne : valuesOf "maxdepth" (after.filterMap option?) ≠ [] :=
      fun hnil => valuesOf_lines_eq_nil_iff.mp hnil later hlater value ho
    rw [parse_of_unreadableDepth h h' hline, if_neg hne]
  · rw [parse_of_unreadableDepth h h' hline, if_pos (valuesOf_lines_eq_nil_iff.mpr hlast)]

section Samples

theorem lines_of_eq {cs : List Char} {ls : List (List Char)} (h : Text.lines cs = ls) :
    Lines cs ls := h ▸ lines_lines cs

theorem unreadableDepth_lots : UnreadableDepth "maxdepth = lots".toList :=
  ⟨"lots", option?_eq_some_iff.mp (by decide +kernel),
    Numeral.decimal?_eq_none_iff.mp (by decide +kernel)⟩

/-- A key that cannot be read behind one that can, and a depth that cannot be read in front
of one that can and behind it. -/
theorem parse_without_ignored_samples :
    parse "xorkey = 7\r\nxorkey = 300" = parse "xorkey = 7\r\n" ∧
    parse "maxdepth = lots\nmaxdepth = 16\n" = parse "maxdepth = 16\n" ∧
    parse "maxdepth = 16\nmaxdepth = lots\n" =
      { parse "maxdepth = 16\n" with maxDepth := 64 } := by
  obtain ⟨-, -, hparse⟩ := parse_without_ignored
  have hkey : IsOption "xorkey = 300".toList ("xorkey", "300") :=
    option?_eq_some_iff.mp (by decide +kernel)
  have hdepth : IsOption "maxdepth = 16".toList ("maxdepth", "16") :=
    option?_eq_some_iff.mp (by decide +kernel)
  refine ⟨?_, ?_, ?_⟩
  · refine (hparse _ _ ["xorkey = 7\r".toList] [] "xorkey = 300".toList
      (lines_of_eq (by decide +kernel)) (lines_of_eq (by decide +kernel))).1 ?_ ?_
    · exact .badKey hkey (Directive.keyOf?_eq_none_iff.mp (by decide +kernel))
    · rintro ⟨value, ho, -⟩
      simpa using hkey.option?.symm.trans ho.option?
  · refine ((hparse _ _ [] ["maxdepth = 16".toList] "maxdepth = lots".toList
      (lines_of_eq (by decide +kernel)) (lines_of_eq (by decide +kernel))).2
      unreadableDepth_lots).1 ?_
    exact ⟨_, List.mem_singleton_self _, _, hdepth⟩
  · refine ((hparse _ _ ["maxdepth = 16".toList] [] "maxdepth = lots".toList
      (lines_of_eq (by decide +kernel)) (lines_of_eq (by decide +kernel))).2
      unreadableDepth_lots).2 ?_
    simp

/-- The parser complains about the last line, and yet without it the depth is another
one. -/
theorem unreadable_depth_resets :
    Drops "maxdepth = 16\nmaxdepth = lots\n".toList "maxdepth = lots".toList
      "maxdepth = 16\n".toList ∧
    Ignored "maxdepth = lots".toList ∧
    (parse "maxdepth = 16\nmaxdepth = lots\n").maxDepth = 64 ∧
    (parse "maxdepth = 16\n").maxDepth = 16 ∧
    parse "maxdepth = 16\nmaxdepth = lots\n" ≠ parse "maxdepth = 16\n" := by
  refine ⟨?_, .badDepth unreadableDepth_lots, by decide +kernel, by decide +kernel,
    by decide +kernel⟩
  have hend : ∀ c ∈ "maxdepth = 16\n".toList.getLast?, c = '\n' := by
    intro c hc
    cases hc
    rfl
  have hdrops : Drops ("maxdepth = 16\n".toList ++ ("maxdepth = lots".toList ++ '\n' :: []))
      "maxdepth = lots".toList ("maxdepth = 16\n".toList ++ []) :=
    .feed hend (by decide)
  simpa using hdrops

end Samples

end Settings

end Others

end WireCapture
