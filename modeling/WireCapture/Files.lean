/-!
# Files

Why a file cannot be read, and how a path is taken from a directory.
-/
namespace WireCapture

inductive ReadFault
  | notFound
  | isDirectory
  | notADirectory
  | nameTooLong
  | linkLoop
  | permissionDenied
  | nulInPath
  | notUtf8
  deriving DecidableEq, Repr

def ReadFault.message : ReadFault → String
  | .notFound => "No such file or directory (os error 2)"
  | .isDirectory => "Is a directory (os error 21)"
  | .notADirectory => "Not a directory (os error 20)"
  | .nameTooLong => "File name too long (os error 36)"
  | .linkLoop => "Too many levels of symbolic links (os error 40)"
  | .permissionDenied => "Permission denied (os error 13)"
  | .nulInPath => "file name contained an unexpected NUL byte"
  | .notUtf8 => "stream did not contain valid UTF-8"

namespace Path

def isAbsolute (path : String) : Bool := path.toList.head? == some '/'

/-- An absolute path stands for itself in every directory. -/
def join (directory path : String) : String :=
  if isAbsolute path then path
  else
    let last := directory.toList.getLast?
    if last == none || last == some '/' then directory ++ path else directory ++ "/" ++ path

end Path

end WireCapture
