import WireCapture.Files
import WireCapture.Settings

/-!
# Settings from a directory

A directory may hold the options and, at a place that the options name, a listing
of object types. Either file may be missing; any other trouble ends the loading.
-/
namespace WireCapture.Settings

inductive LoadFault
  | unreadable (path : String) (cause : ReadFault)
  | badListing (line : ObjectTable.Listing.BadLine)
  deriving DecidableEq, Repr

namespace LoadFault

def message : LoadFault → String
  | .unreadable path cause => "failed to read " ++ path ++ ": " ++ cause.message
  | .badListing line => line.message

/-- The messages of a fault and of what caused it. -/
def causes : LoadFault → List String
  | .unreadable path cause => [message (.unreadable path cause), cause.message]
  | .badListing line => [message (.badListing line)]

end LoadFault

structure Loaded where
  result : Except LoadFault Settings
  events : List Event

/-- The text of a file that may be missing. -/
def optionalText (path : String) : Except ReadFault Bytes → Except LoadFault (Option String)
  | .ok content =>
      match Text.Utf8.decode? content with
      | some text => .ok (some text)
      | none => .error (.unreadable path .notUtf8)
  | .error .notFound => .ok none
  | .error cause => .error (.unreadable path cause)

/-- The settings with the rows of a listing, if there is one. -/
def withListing (s : Settings) : Option String → Except LoadFault Settings
  | none => .ok s
  | some text =>
      match ObjectTable.Listing.parse text with
      | .ok rows => .ok { s with objectTypes := rows }
      | .error line => .error (.badListing line)

/-- Settings and events of the options file of a directory. -/
def ofOptions (directory : String) : Option String → Settings × List Event
  | some text => (parse text, complaints text)
  | none => ({}, [.noOptions optionsFile directory])

variable {m : Type → Type} [Monad m]

/-- Loads with a given way to read files. -/
def load (read : String → m (Except ReadFault Bytes)) (directory : String) : m Loaded := do
  let optionsPath := Path.join directory optionsFile
  match optionalText optionsPath (← read optionsPath) with
  | .error fault => return ⟨.error fault, []⟩
  | .ok options =>
      let (s, events) := ofOptions directory options
      let s := { s with objectTypesFile := Path.join directory s.objectTypesFile }
      match optionalText s.objectTypesFile (← read s.objectTypesFile) with
      | .error fault => return ⟨.error fault, events⟩
      | .ok listing => return ⟨s.withListing listing, events⟩

end WireCapture.Settings
