import WireCapture.Text.Blank

/-!
# Lines

A line feed ends a line; a last line may lack one. Lines are used trimmed, and
trimming also removes a carriage return before the line feed.
-/
namespace WireCapture.Text

def lines (cs : List Char) : List (List Char) := cs.foldr step []
where
  step (c : Char) (after : List (List Char)) : List (List Char) :=
    if c = '\n' then [] :: after
    else match after with
      | [] => [[c]]
      | l :: ls => (c :: l) :: ls

def trimmedLines (text : String) : List (List Char) := (lines text.toList).map trim

/-- Blank lines and comments say nothing. -/
def isSilent (line : List Char) : Bool := line.isEmpty || line.head? == some '#'

end WireCapture.Text
