import WireCapture.Entity.Decoder
import WireCapture.Json.Printer
import WireCapture.Text.Blank
import WireCapture.Text.Numeral

/-!
# Command line

The arguments of the tool. The options for the settings and the format may stand
before the command or after it, and the later place wins; within one place an
option stands at most once.
-/
namespace WireCapture.CommandLine

inductive Command
  | entity (file : String) (type : TypeRef)
  | frames (file : String)
  deriving DecidableEq, Repr

structure Invocation where
  config : Option String
  format : Json.Format
  command : Command
  deriving DecidableEq, Repr

/-- Where an argument stands. -/
inductive Place
  | outside
  | entity
  | frames
  deriving DecidableEq, Repr

inductive Request
  | run (invocation : Invocation)
  | version
  | help (place : Place)
  deriving DecidableEq, Repr

inductive OptionName
  | config | format | tag | objectType | objectId
  deriving DecidableEq, Repr

/-- The options that are known in a place. -/
def OptionName.ofText? (place : Place) (name : String) : Option OptionName :=
  match name, place with
  | "config", _ => some .config
  | "format", _ => some .format
  | "tag", .entity => some .tag
  | "object-type", .entity => some .objectType
  | "object-id", .entity => some .objectId
  | _, _ => none

/-- The shape of one argument. -/
inductive Argument
  | separator
  | long (name : String) (attached : Option String)
  | short (first : Char)
  | word (text : String)
  deriving DecidableEq, Repr

/-- A lone dash is a word. -/
def Argument.ofText (text : String) : Argument :=
  match text.toList with
  | ['-', '-'] => .separator
  | '-' :: '-' :: cs =>
      match Text.cut? '=' cs with
      | some (name, value) => .long (String.ofList name) (some (String.ofList value))
      | none => .long (String.ofList cs) none
  | '-' :: c :: _ => .short c
  | _ => .word text

/-- What has been given in one place. -/
structure Given where
  config : Option String := none
  format : Option Json.Format := none
  tag : Option String := none
  objectType : Option String := none
  objectId : Option UInt16 := none
  file : Option String := none
  deriving DecidableEq, Repr

/-- The name of a file or a directory, which cannot be empty. -/
def path? (text : String) : Option String := if text.isEmpty then none else some text

def format? : String → Option Json.Format
  | "json" => some .compact
  | "pretty" => some .pretty
  | _ => none

/-- A number of 16 bits. Zero may also be written with a minus sign. -/
def objectId? (text : String) : Option UInt16 :=
  match text.toList with
  | '-' :: ds =>
      if ds.isEmpty || Text.Numeral.value? 10 ds != some 0 then none else some 0
  | cs => (Text.Numeral.decimal? UInt16.size cs).map UInt16.ofNat

/-- Fills a place that is still free. -/
def once {α : Type} (old : Option α) (new : Option α) : Option (Option α) :=
  match old, new with
  | none, some a => some (some a)
  | _, _ => none

namespace Given

def set (g : Given) (name : OptionName) (value : String) : Option Given :=
  match name with
  | .config => (once g.config (path? value)).map fun v => { g with config := v }
  | .format => (once g.format (format? value)).map fun v => { g with format := v }
  | .tag => (once g.tag (some value)).map fun v => { g with tag := v }
  | .objectType => (once g.objectType (some value)).map fun v => { g with objectType := v }
  | .objectId => (once g.objectId (objectId? value)).map fun v => { g with objectId := v }

def setFile (g : Given) (text : String) : Option Given :=
  (once g.file (path? text)).map fun v => { g with file := v }

/-- The one type, if exactly one has been given. -/
def type? (g : Given) : Option TypeRef :=
  match g.tag, g.objectType, g.objectId with
  | some t, none, none => some (.tag ⟨t⟩)
  | none, some n, none => some (.objectName n)
  | none, none, some i => some (.objectId i)
  | _, _, _ => none

/-- The request of a command, with what was given before it and after it. -/
def finish (g : Given) (place : Place) (outer : Given) : Option Request := do
  let file ← g.file
  let command ← match place with
    | .outside => none
    | .entity => g.type?.map (.entity file)
    | .frames => some (.frames file)
  let config := g.config.or outer.config
  let format := (g.format.or outer.format).getD .compact
  return .run { config, format, command }

end Given

def helpFor? : List String → Option Request
  | [] => some (.help .outside)
  | ["entity"] => some (.help .entity)
  | ["frames"] => some (.help .frames)
  | ["help"] => some (.help .outside)
  | _ => none

/-- Reads the arguments from left to right. The first one that cannot be used
decides, and so does the first one that asks for help or the version. -/
def scan (place : Place) (outer g : Given) : List String → Option Request
  | [] => g.finish place outer
  | arg :: rest =>
      match Argument.ofText arg with
      | .separator =>
          if place = .outside then none
          else (rest.foldlM Given.setFile g).bind fun g => g.finish place outer
      | .short 'h' => some (.help place)
      | .short 'V' => if place = .outside then some .version else none
      | .short _ => none
      | .long "help" attached => if attached.isNone then some (.help place) else none
      | .long name attached =>
          if name = "version" ∧ place = .outside ∧ attached = none then some .version
          else match OptionName.ofText? place name, attached with
            | none, _ => none
            | some o, some value => (g.set o value).bind fun g => scan place outer g rest
            | some o, none =>
                match rest with
                | [] => none
                | value :: rest =>
                    match Argument.ofText value with
                    | .word _ => (g.set o value).bind fun g => scan place outer g rest
                    | _ => none
      | .word text =>
          match place, text with
          | .outside, "entity" => scan .entity g {} rest
          | .outside, "frames" => scan .frames g {} rest
          | .outside, "help" => helpFor? rest
          | .outside, _ => none
          | _, _ => (g.setFile text).bind fun g => scan place outer g rest

/-- No request if the arguments cannot be used. -/
def parse (args : List String) : Option Request := scan .outside {} {} args

end WireCapture.CommandLine
