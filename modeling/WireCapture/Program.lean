import WireCapture.CommandLine
import WireCapture.Inspection
import WireCapture.Settings.Directory

/-!
# The tool

One run of the tool: from its arguments and a way to read files to what it prints
and its exit code. What was decoded before a failure is printed all the same.
-/
namespace WireCapture.Program

structure Outcome where
  exitCode : UInt32
  output : String
  errors : String
  deriving DecidableEq, Repr

/-- What could not be done, and the chain of its causes. -/
structure Failure where
  context : String
  cause : String
  further : List String := []
  deriving DecidableEq, Repr

namespace Failure

/-- Lines after the first are indented. -/
def indented (margin : String) (text : String) : String :=
  String.ofList (text.toList.flatMap fun c => if c = '\n' then c :: margin.toList else [c])

/-- Causes are numbered if there are several. -/
def causeLines (f : Failure) : List String :=
  match f.further with
  | [] => ["    " ++ indented "    " f.cause]
  | _ =>
      (f.cause :: f.further).zipIdx.map fun c =>
        let number := toString c.2
        let pad := String.ofList (List.replicate (5 - number.length) ' ')
        pad ++ number ++ ": " ++ indented "       " c.1

def report (f : Failure) : String :=
  "Error: " ++ f.context ++ "\n\nCaused by:\n" ++ "\n".intercalate f.causeLines ++ "\n"

end Failure

/-- Printed lines, and the failure that ended the run, if one did. -/
structure Progress where
  lines : List String
  failure : Option Failure
  deriving DecidableEq, Repr

def Progress.outcome (p : Progress) : Outcome where
  exitCode := if p.failure.isSome then 1 else 0
  output := String.join (p.lines.map (· ++ "\n"))
  errors := (p.failure.map Failure.report).getD ""

def failed (f : Failure) : Progress := ⟨[], some f⟩

def entity (s : Settings) (format : Json.Format) (file : String) (type : TypeRef)
    (data : Bytes) : Progress :=
  match (s.decode type data).result with
  | .ok e => ⟨[e.render format], none⟩
  | .error f =>
      { lines := (f.kept.map fun e => e.render format).toList
        failure := some { context := "decode entity " ++ file, cause := f.fault.message } }

def frames (format : Json.Format) (file : String) (data : Bytes) : Progress :=
  let contents := Frame.allOfBytes data
  let number := toString (contents.frames.length + 1)
  { lines := contents.frames.map fun f => f.render format
    failure := contents.fault.map fun fault =>
      { context := "decode frame " ++ number ++ " of " ++ file, cause := fault.message } }

/-- Runs a command on the unmasked content of its file. -/
def command (s : Settings) (format : Json.Format) (data : Bytes) :
    CommandLine.Command → Progress
  | .entity file type => entity s format file type data
  | .frames file => frames format file data

def Command.file : CommandLine.Command → String
  | .entity file _ => file
  | .frames file => file

def loadFailure (directory : String) (fault : Settings.LoadFault) : Failure :=
  { context := "load config from " ++ directory
    cause := fault.message
    further := fault.causes.drop 1 }

def readFailure (file : String) (fault : ReadFault) : Failure :=
  { context := "read " ++ file, cause := fault.message }

variable {m : Type → Type} [Monad m]

def settings (read : String → m (Except ReadFault Bytes)) :
    Option String → m (Except Failure Settings)
  | none => return .ok {}
  | some directory => do
      match (← Settings.load read directory).result with
      | .ok s => return .ok s
      | .error fault => return .error (loadFailure directory fault)

def invoke (read : String → m (Except ReadFault Bytes)) (i : CommandLine.Invocation) :
    m Progress := do
  match ← settings read i.config with
  | .error f => return failed f
  | .ok s =>
      let file := Command.file i.command
      match ← read file with
      | .error fault => return failed (readFailure file fault)
      | .ok content => return command s i.format (s.plain content) i.command

def versionText : String := "xferdump 0.1.0\n"

def helpText : CommandLine.Place → String
  | .outside => "Decode entity snapshots and chunked-transfer captures

Usage: xferdump [OPTIONS] <COMMAND>

Commands:
  entity  Decode one entity snapshot
  frames  Decode a capture of back-to-back chunked-transfer frames
  help    Print this message or the help of the given subcommand(s)

Options:
      --config <CONFIG>  Directory holding xferoptions.txt and objecttypes.txt
      --format <FORMAT>  Output format [default: json] [possible values: json, pretty]
  -h, --help             Print help
  -V, --version          Print version
"
  | .entity => "Decode one entity snapshot

Usage: xferdump entity [OPTIONS] <--tag <TAG>|--object-type <OBJECT_TYPE>|--object-id <OBJECT_ID>> <FILE>

Arguments:
  <FILE>  Path to the snapshot bytes

Options:
      --config <CONFIG>            Directory holding xferoptions.txt and objecttypes.txt
      --tag <TAG>                  Type tag of the top-level entity
      --format <FORMAT>            Output format [default: json] [possible values: json, pretty]
      --object-type <OBJECT_TYPE>  Object type name, resolved through the object-type table
      --object-id <OBJECT_ID>      Object type ID, resolved through the object-type table
  -h, --help                       Print help
"
  | .frames => "Decode a capture of back-to-back chunked-transfer frames

Usage: xferdump frames [OPTIONS] <FILE>

Arguments:
  <FILE>  Path to the capture bytes

Options:
      --config <CONFIG>  Directory holding xferoptions.txt and objecttypes.txt
      --format <FORMAT>  Output format [default: json] [possible values: json, pretty]
  -h, --help             Print help
"

def usageText : String := "error: the arguments cannot be used\n\nFor more information, try '--help'.\n"

/-- One run of the tool. -/
def run (read : String → m (Except ReadFault Bytes)) (args : List String) : m Outcome := do
  match CommandLine.parse args with
  | none => return ⟨2, "", usageText⟩
  | some .version => return ⟨0, versionText, ""⟩
  | some (.help place) => return ⟨0, helpText place, ""⟩
  | some (.run i) => return (← invoke read i).outcome

end WireCapture.Program
