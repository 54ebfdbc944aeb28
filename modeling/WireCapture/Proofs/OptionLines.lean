import WireCapture.Proofs.Numerals
import WireCapture.Settings

/-!
# Option lines

What an options text comes to, as a function of the options on its lines. The last
option under a key decides the setting of that key, and for the mask the last one that
can be read; options under other keys do not matter. So settings that are written as
options come back, in whatever order they are written.
-/
namespace WireCapture

open Text

/-- A line that sets a key to a value: what stands before and after its first equals
sign, without the blanks around either. -/
inductive IsOption : List Char → String × String → Prop
  | set {left right : List Char} {key value : String} : ¬ Silent (left ++ '=' :: right) →
      '=' ∉ left → Trims left key.toList → Trims right value.toList →
      IsOption (left ++ '=' :: right) (key, value)

/-- The options on some lines, in the order of the lines. -/
inductive Options : List (List Char) → List (String × String) → Prop
  | nil : Options [] []
  | option {line : List Char} {o : String × String} {lines : List (List Char)}
      {os : List (String × String)} : IsOption line o → Options lines os →
      Options (line :: lines) (o :: os)
  | other {line : List Char} {lines : List (List Char)} {os : List (String × String)} :
      (∀ o, ¬ IsOption line o) → Options lines os → Options (line :: lines) os

/-- The options of a text. -/
def HasOptions (text : String) (os : List (String × String)) : Prop :=
  ∃ lines, Lines text.toList lines ∧ Options lines os

/-- The values under a key, in the order of the options. -/
def valuesOf (key : String) (os : List (String × String)) : List String :=
  (os.filter fun o => o.1 = key).map Prod.snd

namespace Directive

def ofPair (o : String × String) : Directive := ofOption o.1.toList o.2.toList

/-- The key of a mask that a value stands for. Zero stands for no key. -/
def keyOf? (value : String) : Option (Option UInt8) :=
  (Numeral.byte? value.toList).map fun b => if b = 0 then none else some b

/-- The depth that a value stands for, or else the usual one. -/
def depthOf (value : String) : Nat := (Numeral.decimal? UInt64.size value.toList).getD 64

theorem keyOf?_eq_some_iff {value : String} {key : Option UInt8} : keyOf? value = some key ↔
    ∃ b : UInt8, Numeral.SpellsByte value.toList b.toNat ∧
      key = if b = 0 then none else some b := by
  rw [keyOf?, Option.map_eq_some_iff]
  exact exists_congr fun b => and_congr Numeral.byte?_eq_some_iff eq_comm

theorem depthOf_of_spells {value : String} {n : Nat} (h : Numeral.Spells 10 value.toList n)
    (hn : n < UInt64.size) : depthOf value = n := by
  rw [depthOf, Numeral.decimal?_eq_some_iff.mpr ⟨h, hn⟩, Option.getD_some]

theorem depthOf_of_not_spells {value : String}
    (h : ∀ n < UInt64.size, ¬ Numeral.Spells 10 value.toList n) : depthOf value = 64 := by
  rw [depthOf, Numeral.decimal?_eq_none_iff.mpr h, Option.getD_none]

theorem apply_ofPair (s : Settings) (o : String × String) : (ofPair o).apply s =
    { s with
      xorKey := (if o.1 = "xorkey" then keyOf? o.2 else none).getD s.xorKey
      maxDepth := (if o.1 = "maxdepth" then some (depthOf o.2) else none).getD s.maxDepth
      logLevel := (if o.1 = "loglevel" then some o.2 else none).getD s.logLevel
      objectTypesFile :=
        (if o.1 = "objecttypes" then some o.2 else none).getD s.objectTypesFile } := by
  obtain ⟨key, value⟩ := o
  simp only [ofPair, ofOption, String.ofList_toList]
  split
  · simp only [keyOf?]
    cases Numeral.byte? value.toList <;> rfl
  · simp only [depthOf]
    cases Numeral.decimal? UInt64.size value.toList <;> rfl
  · rfl
  · rfl
  · rename_i hkey hdepth hlevel hfile
    rw [if_neg hkey, if_neg hdepth, if_neg hlevel, if_neg hfile]
    rfl

end Directive

/-- The option on a line, computed. -/
def option? (line : List Char) : Option (String × String) :=
  if isSilent (trim line) then none
  else (cut? '=' (trim line)).map fun o =>
    (String.ofList (trim o.1), String.ofList (trim o.2))

theorem ofLine?_trim (line : List Char) :
    Directive.ofLine? (trim line) = (option? line).map Directive.ofPair := by
  rw [Directive.ofLine?, option?]
  split
  · rfl
  · rw [Option.map_map]
    refine congrArg (Option.map · _) (funext fun o => ?_)
    simp only [Function.comp_apply, Directive.ofPair, String.toList_ofList]

theorem IsOption.option? {line : List Char} {o : String × String} (h : IsOption line o) :
    option? line = some o := by
  cases h with
  | @set left right key value hspeaks hfirst hkey hvalue =>
      have hsilent : isSilent (trim (left ++ '=' :: right)) = false := by
        rw [Bool.eq_false_iff, ne_eq, isSilent_trim_iff]
        exact hspeaks
      obtain ⟨left', right', htrim, hsuffix, hleft, hright⟩ :=
        exists_trim_around (c := '=') (by decide) left right
      have hcut : cut? '=' (trim (left ++ '=' :: right)) = some (left', right') :=
        cut?_eq_some_iff.mpr ⟨htrim, fun hmem => hfirst (hsuffix.subset hmem)⟩
      rw [WireCapture.option?, hsilent, hcut, Option.map_some, hleft, hright, hkey.trim,
        hvalue.trim, String.ofList_toList, String.ofList_toList]
      rfl

theorem exists_isOption {line : List Char} (hspeaks : ¬ Silent line) (hequals : '=' ∈ line) :
    ∃ o, IsOption line o := by
  obtain ⟨before, after, rfl, hfirst⟩ := List.eq_append_cons_of_mem hequals
  refine ⟨(String.ofList (trim before), String.ofList (trim after)), .set hspeaks hfirst ?_ ?_⟩
  · exact trims_iff.mpr String.toList_ofList.symm
  · exact trims_iff.mpr String.toList_ofList.symm

theorem option?_eq_none_iff {line : List Char} :
    option? line = none ↔ Silent line ∨ '=' ∉ line := by
  constructor
  · intro hnone
    by_contra! h
    obtain ⟨o, ho⟩ := exists_isOption h.1 h.2
    rw [ho.option?] at hnone
    cases hnone
  · rintro (hsilent | hequals)
    · rw [option?, if_pos ((isSilent_trim_iff line).mpr hsilent)]
    · have htrim : '=' ∉ trim line := by
        obtain ⟨cs, hcs⟩ := exists_trims line
        rw [hcs.trim]
        cases hcs with
        | between _ _ _ => exact fun hmem => hequals (by simp [hmem])
      have hcut : cut? '=' (trim line) = none := by
        rw [Option.eq_none_iff_forall_ne_some]
        rintro sides hsides
        exact htrim ((cut?_eq_some_iff.mp hsides).1 ▸ by simp)
      rw [option?, hcut]
      split <;> rfl

theorem option?_eq_some_iff {line : List Char} {o : String × String} :
    option? line = some o ↔ IsOption line o := by
  refine ⟨fun h => ?_, IsOption.option?⟩
  have hsome : ¬ (Silent line ∨ '=' ∉ line) := by simp [← option?_eq_none_iff, h]
  rw [not_or, not_not] at hsome
  obtain ⟨o', ho'⟩ := exists_isOption hsome.1 hsome.2
  rw [ho'.option?] at h
  cases h
  exact ho'

theorem options_iff {lines : List (List Char)} {os : List (String × String)} :
    Options lines os ↔ lines.filterMap option? = os := by
  constructor
  · intro h
    induction h with
    | nil => rfl
    | option ho _ ih => rw [List.filterMap_cons_some ho.option?, ih]
    | other hline _ ih =>
        have hnone := Option.eq_none_iff_forall_ne_some.mpr
          fun o => mt option?_eq_some_iff.mp (hline o)
        rw [List.filterMap_cons_none hnone, ih]
  · rintro rfl
    induction lines with
    | nil => exact .nil
    | cons line lines ih =>
        cases hline : option? line with
        | none =>
            rw [List.filterMap_cons_none hline]
            refine .other (fun o ho => ?_) ih
            rw [ho.option?] at hline
            cases hline
        | some o =>
            rw [List.filterMap_cons_some hline]
            exact .option (option?_eq_some_iff.mp hline) ih

theorem hasOptions_filterMap (text : String) :
    HasOptions text ((lines text.toList).filterMap option?) :=
  ⟨_, lines_lines _, options_iff.mpr rfl⟩

theorem HasOptions.ofText {text : String} {os : List (String × String)} (h : HasOptions text os) :
    Directive.ofText text = os.map Directive.ofPair := by
  obtain ⟨lines, hlines, hos⟩ := h
  rw [Directive.ofText, hlines.trimmedLines, List.filterMap_map, ← options_iff.mp hos,
    List.map_filterMap]
  exact congrArg (List.filterMap · lines) (funext ofLine?_trim)

/-- Where every step sets a value or keeps it, the last one that sets it decides. -/
theorem foldl_latest {σ α β : Type} {get : σ → β} {step : σ → α → σ} {named : α → Option β}
    (h : ∀ s a, get (step s a) = (named a).getD (get s)) (as : List α) (s : σ) :
    get (as.foldl step s) = (as.filterMap named).getLast?.getD (get s) := by
  induction as generalizing s with
  | nil => rfl
  | cons a as ih =>
      rw [List.foldl_cons, ih, h, List.filterMap_cons]
      cases named a with
      | none => rfl
      | some b => rw [List.getLast?_cons]; rfl

theorem filterMap_valuesOf {β : Type} (key : String) (meaning : String → Option β)
    (os : List (String × String)) :
    os.filterMap (fun o => if o.1 = key then meaning o.2 else none) =
      (valuesOf key os).filterMap meaning := by
  induction os with
  | nil => rfl
  | cons o os ih =>
      by_cases h : o.1 = key
      · rw [valuesOf, List.filter_cons_of_pos (by simpa using h), List.map_cons,
          List.filterMap_cons, List.filterMap_cons, if_pos h, ih, valuesOf]
      · rw [valuesOf, List.filter_cons_of_neg (by simpa using h),
          List.filterMap_cons_none (by rw [if_neg h]), ih, valuesOf]

namespace Settings

/-- A setting that only the options under one key change. -/
theorem latest_option {β : Type} (get : Settings → β) (key : String)
    (meaning : String → Option β)
    (h : ∀ s o, get ((Directive.ofPair o).apply s) =
      (if o.1 = key then meaning o.2 else none).getD (get s)) {text : String}
    {os : List (String × String)} (hos : HasOptions text os) :
    get (parse text) = ((valuesOf key os).filterMap meaning).getLast?.getD (get {}) := by
  rw [parse, hos.ofText, List.foldl_map, foldl_latest h, filterMap_valuesOf]

/-- No option brings rows. -/
theorem objectTypes_parse (text : String) : (parse text).objectTypes = [] := by
  have hfold : ∀ (ds : List Directive) (s : Settings),
      (ds.foldl Directive.apply s).objectTypes = s.objectTypes := by
    intro ds
    induction ds with
    | nil => exact fun _ => rfl
    | cons d ds ih =>
        intro s
        rw [List.foldl_cons, ih]
        cases d <;> rfl
  exact hfold _ _

/-- The settings of a text from its options. -/
theorem parse_eq {text : String} {os : List (String × String)} (h : HasOptions text os) :
    parse text =
      { xorKey := ((valuesOf "xorkey" os).filterMap Directive.keyOf?).getLast?.getD none
        maxDepth := ((valuesOf "maxdepth" os).getLast?.map Directive.depthOf).getD 64
        logLevel := (valuesOf "loglevel" os).getLast?.getD "info"
        objectTypesFile := (valuesOf "objecttypes" os).getLast?.getD "objecttypes.txt"
        objectTypes := [] } := by
  have hkey := latest_option xorKey "xorkey" Directive.keyOf?
    (fun s o => congrArg xorKey (Directive.apply_ofPair s o)) h
  have hdepth := latest_option maxDepth "maxdepth" (some ∘ Directive.depthOf)
    (fun s o => congrArg maxDepth (Directive.apply_ofPair s o)) h
  have hlevel := latest_option logLevel "loglevel" some
    (fun s o => congrArg logLevel (Directive.apply_ofPair s o)) h
  have hfile := latest_option objectTypesFile "objecttypes" some
    (fun s o => congrArg objectTypesFile (Directive.apply_ofPair s o)) h
  rw [List.filterMap_eq_map, List.getLast?_map] at hdepth
  rw [List.filterMap_some] at hlevel hfile
  calc parse text = ⟨(parse text).xorKey, (parse text).maxDepth, (parse text).logLevel,
        (parse text).objectTypesFile, (parse text).objectTypes⟩ := rfl
    _ = _ := by rw [hkey, hdepth, hlevel, hfile, objectTypes_parse]

/-- Settings that options can express. -/
structure Storable (s : Settings) : Prop where
  objectTypes : s.objectTypes = []
  xorKey : s.xorKey ≠ some 0
  maxDepth : s.maxDepth < UInt64.size
  logLevel : Tight s.logLevel.toList ∧ '\n' ∉ s.logLevel.toList
  objectTypesFile : Tight s.objectTypesFile.toList ∧ '\n' ∉ s.objectTypesFile.toList

/-- The options for some settings. No key needs no option. -/
def options (s : Settings) : List (String × String) :=
  (s.xorKey.toList.map fun key => ("xorkey", toString key.toNat)) ++
    [("maxdepth", toString s.maxDepth), ("loglevel", s.logLevel),
      ("objecttypes", s.objectTypesFile)]

/-- An option on a line of its own. -/
def optionLine (o : String × String) : List Char := (o.1 ++ " = " ++ o.2).toList

/-- One word, which neither ends at an equals sign nor starts a comment. -/
def IsKey (key : String) : Prop :=
  Solid key.toList ∧ '=' ∉ key.toList ∧ key.toList.head? ≠ some '#'

theorem isKey_of_mem : ∀ key ∈ ["xorkey", "maxdepth", "loglevel", "objecttypes"], IsKey key := by
  unfold IsKey
  decide

/-- An option that can stand on a line. -/
structure Plain (o : String × String) : Prop where
  key : IsKey o.1
  value : Tight o.2.toList ∧ '\n' ∉ o.2.toList

section Plain

variable {o : String × String} {s : Settings}

theorem optionLine_eq (o : String × String) :
    optionLine o = (o.1.toList ++ [' ']) ++ '=' :: ([' '] ++ o.2.toList) := by
  simp [optionLine]

theorem isOption_optionLine (h : Plain o) : IsOption (optionLine o) o := by
  obtain ⟨hsolid, hequals, hcomment⟩ := h.key
  have hgap : Gap [' '] := by simp [Gap, isBlank]
  obtain ⟨fs, hrest⟩ := exists_laid ([' '] ++ '=' :: ([' '] ++ o.2.toList))
  have hlaid : Laid (optionLine o) (o.1.toList :: fs) := by
    have hfront := Laid.field (g := []) (by simp [Gap]) hsolid (by simp [isBlank]) hrest
    simpa [optionLine_eq] using hfront
  have hspeaks : ¬ Silent (optionLine o) := fun hsilent => hcomment (hlaid.silent_iff.mp hsilent)
  rw [optionLine_eq] at hspeaks ⊢
  refine .set hspeaks (by simp [hequals]) ?_ ?_
  · rw [trims_iff, trim_append_gap hgap, hsolid.tight.trim]
  · rw [trims_iff, trim_gap_append hgap, h.value.1.trim]

theorem feed_not_mem_optionLine (h : Plain o) : '\n' ∉ optionLine o := by
  have hkey : '\n' ∉ o.1.toList := fun hmem => absurd (h.key.1.2 _ hmem) (by decide)
  simp [optionLine_eq, hkey, h.value.2]

theorem options_of_plain {os : List (String × String)} (h : ∀ o ∈ os, Plain o) :
    Options (os.map optionLine) os := by
  induction os with
  | nil => exact .nil
  | cons o os ih =>
      obtain ⟨ho, hos⟩ := List.forall_mem_cons.mp h
      exact .option (isOption_optionLine ho) (ih hos)

theorem plain_of_solid {key value : String} (hkey : IsKey key) (h : Solid value.toList) :
    Plain (key, value) :=
  ⟨hkey, h.tight, fun hmem => absurd (h.2 _ hmem) (by decide)⟩

theorem Storable.plain (h : Storable s) : ∀ o ∈ s.options, Plain o := by
  have hnumber : ∀ n : Nat, Solid (toString n).toList :=
    fun n => (Numeral.digits_toString n).solid (by decide)
  intro o ho
  simp only [options, List.mem_append, List.mem_map, List.mem_cons, List.not_mem_nil,
    or_false] at ho
  rcases ho with ⟨key, -, rfl⟩ | rfl | rfl | rfl
  · exact plain_of_solid (isKey_of_mem _ (by decide)) (hnumber _)
  · exact plain_of_solid (isKey_of_mem _ (by decide)) (hnumber _)
  · exact ⟨isKey_of_mem "loglevel" (by decide), h.logLevel⟩
  · exact ⟨isKey_of_mem "objecttypes" (by decide), h.objectTypesFile⟩

end Plain

theorem valuesOf_options (s : Settings) :
    valuesOf "xorkey" s.options = s.xorKey.toList.map (fun key => toString key.toNat) ∧
    valuesOf "maxdepth" s.options = [toString s.maxDepth] ∧
    valuesOf "loglevel" s.options = [s.logLevel] ∧
    valuesOf "objecttypes" s.options = [s.objectTypesFile] := by
  cases hkey : s.xorKey <;> simp [valuesOf, options, hkey]

/-- Where at most one option stands under a key, the order does not matter. -/
theorem valuesOf_of_perm {os os' : List (String × String)} (h : os.Perm os') {key : String}
    {values : List String} (hvalues : valuesOf key os' = values) (hone : values.length ≤ 1) :
    valuesOf key os = values := by
  have hperm : (valuesOf key os).Perm values := hvalues ▸ (h.filter _).map _
  match values, hone with
  | [], _ => exact List.perm_nil.mp hperm
  | [value], _ => exact List.perm_singleton.mp hperm

/-- Settings come back from a text with their options in any order. -/
theorem parse_of_perm {s : Settings} (hs : Storable s) {text : String}
    {os : List (String × String)} (hperm : os.Perm s.options)
    (hlines : Lines text.toList (os.map optionLine)) : parse text = s := by
  have hplain : ∀ o ∈ os, Plain o := fun o ho => hs.plain o (hperm.mem_iff.mp ho)
  have hos : HasOptions text os := ⟨_, hlines, options_of_plain hplain⟩
  obtain ⟨hkey, hdepth, hlevel, hfile⟩ := valuesOf_options s
  have hkeys : (s.xorKey.toList.map fun key => toString key.toNat).length ≤ 1 := by
    cases s.xorKey <;> simp
  rw [parse_eq hos, valuesOf_of_perm hperm hkey hkeys, valuesOf_of_perm hperm hdepth (by simp),
    valuesOf_of_perm hperm hlevel (by simp), valuesOf_of_perm hperm hfile (by simp),
    ← hs.objectTypes]
  have hdepth : Directive.depthOf (toString s.maxDepth) = s.maxDepth :=
    Directive.depthOf_of_spells (.inl (Numeral.digits_toString _)) hs.maxDepth
  have hxor : ((s.xorKey.toList.map fun key => toString key.toNat).filterMap
      Directive.keyOf?).getLast?.getD none = s.xorKey := by
    cases hkey : s.xorKey with
    | none => rfl
    | some key =>
        have hne : key ≠ 0 := fun hzero => hs.xorKey (hkey.trans (congrArg some hzero))
        have hspells : Numeral.SpellsByte (toString key.toNat).toList key.toNat :=
          .inl (.inl (Numeral.digits_toString _))
        have hvalue : Directive.keyOf? (toString key.toNat) = some (some key) :=
          Directive.keyOf?_eq_some_iff.mpr ⟨key, hspells, by rw [if_neg hne]⟩
        rw [Option.toList_some, List.map_singleton, List.filterMap_cons_some hvalue]
        rfl
  rw [hxor]
  simp only [List.getLast?_singleton, Option.map_some, Option.getD_some, hdepth]

/-- The options of a text decide its settings, and of the options under one key the last
one does: for the mask the last that spells a byte, where zero stands for no key. Options
under different keys may change places, and settings that are written as options come
back. -/
theorem parse_latest_options :
    (∀ text : String, ∃ os, HasOptions text os) ∧
    (∀ (text : String) (os : List (String × String)), HasOptions text os → parse text =
      { xorKey := ((valuesOf "xorkey" os).filterMap Directive.keyOf?).getLast?.getD none
        maxDepth := ((valuesOf "maxdepth" os).getLast?.map Directive.depthOf).getD 64
        logLevel := (valuesOf "loglevel" os).getLast?.getD "info"
        objectTypesFile := (valuesOf "objecttypes" os).getLast?.getD "objecttypes.txt"
        objectTypes := [] }) ∧
    (∀ (value : String) (key : Option UInt8), Directive.keyOf? value = some key ↔
      ∃ b : UInt8, Numeral.SpellsByte value.toList b.toNat ∧
        key = if b = 0 then none else some b) ∧
    (∀ value : String,
      (∀ n < UInt64.size, Numeral.Spells 10 value.toList n → Directive.depthOf value = n) ∧
      ((∀ n < UInt64.size, ¬ Numeral.Spells 10 value.toList n) →
        Directive.depthOf value = 64)) ∧
    (∀ (text text' : String) (os os' : List (String × String)), HasOptions text os →
      HasOptions text' os' → (∀ key, valuesOf key os = valuesOf key os') →
      parse text = parse text') ∧
    ∀ s : Settings, Storable s → ∀ os : List (String × String), os.Perm s.options →
      (∃ text : String, Lines text.toList (os.map optionLine)) ∧
      ∀ text : String, Lines text.toList (os.map optionLine) → parse text = s := by
  refine ⟨fun text => ⟨_, hasOptions_filterMap text⟩, fun text os => parse_eq,
    fun _ _ => Directive.keyOf?_eq_some_iff,
    fun _ => ⟨fun _ hn h => Directive.depthOf_of_spells h hn, Directive.depthOf_of_not_spells⟩,
    ?_, ?_⟩
  · intro text text' os os' h h' hsame
    rw [parse_eq h, parse_eq h', hsame, hsame, hsame, hsame]
  · intro s hs os hperm
    refine ⟨?_, fun text => parse_of_perm hs hperm⟩
    have hfeed : ∀ l ∈ os.map optionLine, '\n' ∉ l := by
      intro l hl
      obtain ⟨o, ho, rfl⟩ := List.mem_map.mp hl
      exact feed_not_mem_optionLine (hs.plain o (hperm.mem_iff.mp ho))
    refine ⟨String.ofList ((os.map optionLine).flatMap (· ++ ['\n'])), ?_⟩
    rw [String.toList_ofList]
    exact lines_flatMap hfeed

/-- Options in two orders, with a late key that cannot be read and a value that has an
equals sign and a number sign in it; and settings with their options the other way
round. -/
theorem parse_latest_options_samples :
    parse "#xorkey=1\r\nxorkey = 0x5A\nobjecttypes=a=b#c\nmaxdepth=12\nxorkey=300\nmaxdepth=x" =
      { xorKey := some 0x5A, objectTypesFile := "a=b#c" } ∧
    parse "maxdepth=12\nxorkey=0x5A\nmaxdepth=x\nxorkey=300\nobjecttypes=a=b#c" =
      { xorKey := some 0x5A, objectTypesFile := "a=b#c" } ∧
    parse "objecttypes = my types.txt\nloglevel = warn\nmaxdepth = 3\nxorkey = 7\n" =
      ⟨some 7, 3, "warn", "my types.txt", []⟩ := by
  obtain ⟨-, hlatest, -, -, hreorder, hwritten⟩ := parse_latest_options
  let os := [("xorkey", "0x5A"), ("objecttypes", "a=b#c"), ("maxdepth", "12"), ("xorkey", "300"),
    ("maxdepth", "x")]
  let os' := [("maxdepth", "12"), ("xorkey", "0x5A"), ("maxdepth", "x"), ("xorkey", "300"),
    ("objecttypes", "a=b#c")]
  have hos : HasOptions
      "#xorkey=1\r\nxorkey = 0x5A\nobjecttypes=a=b#c\nmaxdepth=12\nxorkey=300\nmaxdepth=x" os :=
    ⟨_, lines_lines _, options_iff.mpr (by decide +kernel)⟩
  have hos' : HasOptions
      "maxdepth=12\nxorkey=0x5A\nmaxdepth=x\nxorkey=300\nobjecttypes=a=b#c" os' :=
    ⟨_, lines_lines _, options_iff.mpr (by decide +kernel)⟩
  have hfirst : parse
      "#xorkey=1\r\nxorkey = 0x5A\nobjecttypes=a=b#c\nmaxdepth=12\nxorkey=300\nmaxdepth=x" =
      { xorKey := some 0x5A, objectTypesFile := "a=b#c" } := by
    rw [hlatest _ _ hos]
    decide +kernel
  refine ⟨hfirst, ?_, ?_⟩
  · have hsame : ∀ key, valuesOf key os = valuesOf key os' := by
      intro key
      by_cases hkey : "xorkey" = key
      · subst hkey
        decide +kernel
      · by_cases hfile : "objecttypes" = key
        · subst hfile
          decide +kernel
        · simp [valuesOf, os, os', List.filter_cons, hkey, hfile]
    rw [← hreorder _ _ _ _ hos hos' hsame, hfirst]
  · let s : Settings := ⟨some 7, 3, "warn", "my types.txt", []⟩
    have hs : Storable s := by
      refine ⟨rfl, by decide, by decide, ?_, ?_⟩ <;> decide +kernel
    refine (hwritten s hs s.options.reverse s.options.reverse_perm).2 _ ?_
    have hlines := lines_lines
      "objecttypes = my types.txt\nloglevel = warn\nmaxdepth = 3\nxorkey = 7\n".toList
    have hcut : lines
        "objecttypes = my types.txt\nloglevel = warn\nmaxdepth = 3\nxorkey = 7\n".toList =
        s.options.reverse.map optionLine := by decide +kernel
    rwa [hcut] at hlines

end Settings

end WireCapture
