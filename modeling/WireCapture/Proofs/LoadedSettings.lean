import WireCapture.Program
import WireCapture.Proofs.MaskKey
import WireCapture.Proofs.Utf8Pieces

/-!
# Settings that load

What must stand in the files of a directory for a run of the tool to get settings:
readable options or none, and a well-formed listing or none at the place that the options
name. Nothing else loads, and the listing has no say in the key.
-/
namespace WireCapture.Program

variable {files : String → Except ReadFault Bytes}

/-- The options stand in a file, or the file is missing and there are none. -/
def OptionsAt (files : String → Except ReadFault Bytes) (path text : String) : Prop :=
  files path = .ok (Text.Utf8.encode text) ∨ files path = .error .notFound ∧ text = ""

/-- The file of object types is missing or well-formed. -/
def ListingAt (files : String → Except ReadFault Bytes) (path : String) : Prop :=
  files path = .error .notFound ∨ ∃ listing rows,
    files path = .ok (Text.Utf8.encode listing) ∧ ObjectTable.Listing.parse listing = .ok rows

/-- The settings load: they are the usual ones or come from the options in a directory. -/
inductive Configured (files : String → Except ReadFault Bytes) : Option String → String → Prop
  | none : Configured files none ""
  | directory {directory text : String} :
      OptionsAt files (Path.join directory Settings.optionsFile) text →
      ListingAt files (Path.join directory (Settings.parse text).objectTypesFile) →
      Configured files (some directory) text

variable {path text directory : String} {config : Option String} {s t : Settings}

theorem optionalText_eq_ok_iff {content : Except ReadFault Bytes} {o : Option String} :
    Settings.optionalText path content = .ok o ↔
      (∃ text, o = some text ∧ content = .ok (Text.Utf8.encode text)) ∨
        o = none ∧ content = .error .notFound := by
  cases content with
  | ok bs =>
      cases hbs : Text.Utf8.decode? bs with
      | none =>
          have hnone : ∀ text, bs ≠ Text.Utf8.encode text := by
            rintro text rfl
            rw [Text.Utf8.decode?_encode] at hbs
            cases hbs
          simp [Settings.optionalText, hbs, hnone]
      | some text =>
          have hsome : ∀ t, Text.Utf8.encode text = Text.Utf8.encode t ↔ text = t := by
            intro t
            rw [eq_comm, ← Text.Utf8.decode?_eq_some_iff, Text.Utf8.decode?_encode, Option.some.injEq]
          obtain rfl := Text.Utf8.decode?_eq_some_iff.mp hbs
          simp [Settings.optionalText, hbs, hsome, eq_comm]
  | error e => cases e <;> simp [Settings.optionalText, eq_comm]

theorem optionsAt_iff : OptionsAt files path text ↔
    ∃ options, Settings.optionalText path (files path) = .ok options ∧ options.getD "" = text := by
  simp only [optionalText_eq_ok_iff]
  constructor
  · rintro (h | ⟨h, rfl⟩)
    · exact ⟨some text, .inl ⟨text, rfl, h⟩, rfl⟩
    · exact ⟨none, .inr ⟨rfl, h⟩, rfl⟩
  · rintro ⟨_, ⟨text, rfl, h⟩ | ⟨rfl, h⟩, rfl⟩
    · exact .inl h
    · exact .inr ⟨h, rfl⟩

theorem listingAt_iff (s : Settings) : ListingAt files path ↔
    ∃ listing t, Settings.optionalText path (files path) = .ok listing ∧
      s.withListing listing = .ok t := by
  simp only [optionalText_eq_ok_iff]
  constructor
  · rintro (h | ⟨listing, rows, h, hrows⟩)
    · exact ⟨none, s, .inr ⟨rfl, h⟩, rfl⟩
    · refine ⟨some listing, { s with objectTypes := rows }, .inl ⟨listing, rfl, h⟩, ?_⟩
      rw [Settings.withListing, hrows]
  · rintro ⟨_, t, ⟨listing, rfl, h⟩ | ⟨rfl, h⟩, hwith⟩
    · cases hrows : ObjectTable.Listing.parse listing with
      | ok rows => exact .inr ⟨listing, rows, h, hrows⟩
      | error line => simp [Settings.withListing, hrows] at hwith
    · exact .inl h

/-- A listing does not change the key. -/
theorem key_of_withListing {listing : Option String} (h : s.withListing listing = .ok t) :
    t.key = s.key := by
  unfold Settings.withListing at h
  split at h
  · cases h
    rfl
  · split at h
    · cases h
      rfl
    · cases h

theorem ofOptions_fst (directory : String) (options : Option String) :
    (Settings.ofOptions directory options).1 = Settings.parse (options.getD "") := by
  cases options <;> rfl

/-- The settings of the options in a directory, before the listing is read. -/
def named (directory : String) (options : Option String) : Settings :=
  let s := Settings.parse (options.getD "")
  { s with objectTypesFile := Path.join directory s.objectTypesFile }

theorem objectTypesFile_named (directory : String) (options : Option String) :
    (named directory options).objectTypesFile =
      Path.join directory (Settings.parse (options.getD "")).objectTypesFile := by
  rw [named]

theorem key_named (directory : String) (options : Option String) :
    (named directory options).key = Settings.effectiveKey (options.getD "") := by
  rw [← Settings.key_parse, named, Settings.key, Settings.key]

theorem settings_directory_iff :
    Id.run (settings (fun path => pure (files path)) (some directory)) = .ok s ↔
      ∃ options listing, Settings.optionalText (Path.join directory Settings.optionsFile)
          (files (Path.join directory Settings.optionsFile)) = .ok options ∧
        Settings.optionalText (named directory options).objectTypesFile
          (files (named directory options).objectTypesFile) = .ok listing ∧
        (named directory options).withListing listing = .ok s := by
  cases hoptions : Settings.optionalText (Path.join directory Settings.optionsFile)
      (files (Path.join directory Settings.optionsFile)) with
  | error fault => simp [settings, Settings.load, hoptions]
  | ok options =>
      cases hlisting : Settings.optionalText
          (Path.join directory (Settings.parse (options.getD "")).objectTypesFile)
          (files (Path.join directory (Settings.parse (options.getD "")).objectTypesFile)) with
      | error fault => simp [settings, Settings.load, ofOptions_fst, named, hoptions, hlisting]
      | ok listing =>
          cases hwith : (named directory options).withListing listing <;> rw [named] at hwith <;>
            simp [settings, Settings.load, ofOptions_fst, named, hoptions, hlisting, hwith]

/-- Settings that are configured load with the key of the options, whatever the listing
holds. -/
theorem exists_settings (h : Configured files config text) :
    ∃ s, Id.run (settings (fun path => pure (files path)) config) = .ok s ∧
      s.key = Settings.effectiveKey text := by
  cases h with
  | none => exact ⟨{}, rfl, rfl⟩
  | @directory directory _ hoptions hlisting =>
      obtain ⟨options, hread, rfl⟩ := optionsAt_iff.mp hoptions
      rw [← objectTypesFile_named] at hlisting
      obtain ⟨listing, s, hlist, hs⟩ := (listingAt_iff (named directory options)).mp hlisting
      refine ⟨s, settings_directory_iff.mpr ⟨options, listing, hread, hlist, hs⟩, ?_⟩
      rw [key_of_withListing hs, key_named]

/-- No others load. -/
theorem loads_iff : (∃ s, Id.run (settings (fun path => pure (files path)) config) = .ok s) ↔
    ∃ text, Configured files config text := by
  constructor
  · rintro ⟨s, hs⟩
    cases config with
    | none => exact ⟨"", .none⟩
    | some directory =>
        obtain ⟨options, listing, hread, hlist, hwith⟩ := settings_directory_iff.mp hs
        have hoptions := optionsAt_iff.mpr ⟨options, hread, rfl⟩
        have hlisting := (listingAt_iff _).mpr ⟨listing, s, hlist, hwith⟩
        rw [objectTypesFile_named] at hlisting
        exact ⟨_, .directory hoptions hlisting⟩
  · rintro ⟨text, h⟩
    obtain ⟨s, hs, -⟩ := exists_settings h
    exact ⟨s, hs⟩

end WireCapture.Program
