import WireCapture.ObjectTable
import WireCapture.Text.Line
import WireCapture.Text.Numeral

/-!
# Listings of object types

A listing has one row a line, with three fields: number, name and tag. Blank
lines and comments are skipped, but they count.
-/
namespace WireCapture.ObjectTable.Listing

inductive Issue
  | fieldCount (found : Nat)
  | badId (field : String)
  deriving DecidableEq, Repr

/-- The first line that holds no row, counted from one. -/
structure BadLine where
  line : Nat
  issue : Issue
  deriving DecidableEq, Repr

def Issue.message : Issue → String
  | .fieldCount found => s!"expected `<id> <name> <tag>`, found {found} fields"
  | .badId field => "invalid object type id `" ++ field ++ "`"

def BadLine.message (b : BadLine) : String :=
  let line := b.line
  let issue := b.issue.message
  s!"line {line}: {issue}"

def row? (line : List Char) : Except Issue ObjectRow :=
  match Text.fields line with
  | [id, name, tag] =>
      match Text.Numeral.decimal? UInt16.size id with
      | some n => .ok ⟨UInt16.ofNat n, String.ofList name, ⟨String.ofList tag⟩⟩
      | none => .error (.badId (String.ofList id))
  | fields => .error (.fieldCount fields.length)

/-- The lines that say something, with their numbers. -/
def numbered (text : String) : List (List Char × Nat) :=
  ((Text.trimmedLines text).zipIdx 1).filter fun l => !Text.isSilent l.1

def rowAt (l : List Char × Nat) : Except BadLine ObjectRow :=
  match row? l.1 with
  | .ok row => .ok row
  | .error issue => .error ⟨l.2, issue⟩

def parse (text : String) : Except BadLine (List ObjectRow) := (numbered text).mapM rowAt

end WireCapture.ObjectTable.Listing
