import WireCapture.Event
import WireCapture.ObjectTable.Listing
import WireCapture.ByteMask

/-!
# Settings

The settings of the tool, as read from lines of the form `key = value`. A later
line wins over an earlier one; lines that cannot be used are reported.
-/
namespace WireCapture

structure Settings where
  xorKey : Option UInt8 := none
  /-- How deep entities may be nested. -/
  maxDepth : Nat := 64
  logLevel : String := "info"
  objectTypesFile : String := "objecttypes.txt"
  objectTypes : List ObjectRow := []
  deriving DecidableEq, Repr

/-- What one line of the options asks for. -/
inductive Directive
  | xorKey (key : UInt8)
  | badXorKey (value : String)
  | maxDepth (n : Nat)
  | badMaxDepth (value : String)
  | logLevel (value : String)
  | objectTypesFile (path : String)
  | unknown (key value : String)
  deriving DecidableEq, Repr

namespace Directive

def ofOption (key value : List Char) : Directive :=
  let text := String.ofList value
  match String.ofList key with
  | "xorkey" =>
      match Text.Numeral.byte? value with
      | some k => .xorKey k
      | none => .badXorKey text
  | "maxdepth" =>
      match Text.Numeral.decimal? UInt64.size value with
      | some n => .maxDepth n
      | none => .badMaxDepth text
  | "loglevel" => .logLevel text
  | "objecttypes" => .objectTypesFile text
  | key => .unknown key text

/-- A trimmed line with an equals sign, unless it is a comment. -/
def ofLine? (line : List Char) : Option Directive :=
  if Text.isSilent line then none
  else (Text.cut? '=' line).map fun o => ofOption (Text.trim o.1) (Text.trim o.2)

def ofText (text : String) : List Directive := (Text.trimmedLines text).filterMap ofLine?

/-- A zero key means no key, and an unreadable depth the usual one. -/
def apply (s : Settings) : Directive → Settings
  | .xorKey k => { s with xorKey := if k = 0 then none else some k }
  | .badXorKey _ => s
  | .maxDepth n => { s with maxDepth := n }
  | .badMaxDepth _ => { s with maxDepth := 64 }
  | .logLevel v => { s with logLevel := v }
  | .objectTypesFile p => { s with objectTypesFile := p }
  | .unknown _ _ => s

def complaint? : Directive → Option Event
  | .badXorKey v => some (.badXorKey v)
  | .badMaxDepth v => some (.badMaxDepth v)
  | .unknown k v => some (.unknownOption k v)
  | _ => none

end Directive

namespace Settings

def optionsFile : String := "xferoptions.txt"

def parse (text : String) : Settings := (Directive.ofText text).foldl Directive.apply {}

/-- What parsing reports, in the order of the lines. -/
def complaints (text : String) : List Event := (Directive.ofText text).filterMap Directive.complaint?

/-- The first row with a name, whatever rows follow it. -/
def objectType? (s : Settings) (name : String) : Option ObjectRow :=
  s.objectTypes.find? fun r => r.name = name

def table (s : Settings) : ObjectTable := .ofRows s.objectTypes

/-- A capture without the mask that the settings name. -/
def plain (s : Settings) (data : Bytes) : Bytes :=
  match s.xorKey with
  | some key => ByteMask.combine key data
  | none => data

def summary (s : Settings) : List Event :=
  let key := match s.xorKey with
    | some k => "0x" ++ String.ofList (Text.Numeral.hexByte k)
    | none => "(none)"
  let depth := toString s.maxDepth
  let rows := toString s.objectTypes.length
  [ .summary "Xfer Configuration:",
    .summary ("  [" ++ optionsFile ++ "]"),
    .summary ("    XOR key: " ++ key),
    .summary ("    Max depth: " ++ depth),
    .summary ("    Log level: " ++ s.logLevel),
    .summary ("  [" ++ s.objectTypesFile ++ "]"),
    .summary ("    Object types: " ++ rows) ]

end Settings

end WireCapture
