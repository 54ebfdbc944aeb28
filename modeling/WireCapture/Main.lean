import WireCapture.Program

/-!
# Running the tool

Reads files, prints, and sets the exit code; everything else is decided by
`Program.run`.
-/
namespace WireCapture.Console

/-- The system's number of an error, which may be given negated. -/
def errorNumber (code : UInt32) : UInt32 := min code (-code)

/-- The number of an error tells apart the causes that share a kind. -/
def readFault : IO.Error → ReadFault
  | .inappropriateType _ code _ =>
      if errorNumber code = 21 then .isDirectory else .notADirectory
  | .invalidArgument _ code _ =>
      if errorNumber code = 22 then .nulInPath
      else if errorNumber code = 40 then .linkLoop
      else .nameTooLong
  | .permissionDenied .. => .permissionDenied
  | _ => .notFound

def readFile (path : String) : IO (Except ReadFault Bytes) := do
  try
    return .ok (← IO.FS.readBinFile path).toList
  catch e =>
    return .error (readFault e)

end WireCapture.Console

def main (args : List String) : IO UInt32 := do
  let outcome ← WireCapture.Program.run WireCapture.Console.readFile args
  IO.print outcome.output
  IO.eprint outcome.errors
  return outcome.exitCode
