/-!
# UTF-16

Decoding of code units. A surrogate without its partner becomes one replacement
character and takes nothing with it.
-/
namespace WireCapture.Text.Utf16

def isHigh (u : Nat) : Bool := 0xD800 ≤ u && u < 0xDC00

def isLow (u : Nat) : Bool := 0xDC00 ≤ u && u < 0xE000

def pair (high low : Nat) : Char :=
  Char.ofNat (0x10000 + (high - 0xD800) * 0x400 + (low - 0xDC00))

/-- The first character and the units after it. -/
def piece (u : Nat) (rest : List Nat) : Char × List Nat :=
  if isHigh u then
    match rest with
    | v :: rest' => if isLow v then (pair u v, rest') else ('\uFFFD', rest)
    | [] => ('\uFFFD', [])
  else if isLow u then ('\uFFFD', rest)
  else (Char.ofNat u, rest)

theorem length_piece_le (u : Nat) (rest : List Nat) :
    (piece u rest).2.length ≤ rest.length := by
  unfold piece
  repeat' split
  all_goals simp

def decode (units : List Nat) : List Char := go units []
where
  go : List Nat → List Char → List Char
    | [], done => done.reverse
    | u :: rest, done => go (piece u rest).2 ((piece u rest).1 :: done)
  termination_by units => units.length
  decreasing_by exact Nat.lt_succ_of_le (length_piece_le u rest)

theorem decode_go (units : List Nat) (done : List Char) :
    decode.go units done = done.reverse ++ decode units := by
  generalize hn : units.length = n
  induction n using Nat.strongRecOn generalizing units done with
  | ind n ih =>
      subst hn
      cases units with
      | nil => simp [decode, decode.go]
      | cons u rest =>
          have hlt := Nat.lt_succ_of_le (length_piece_le u rest)
          rw [decode, decode.go, decode.go, ih _ hlt _ _ rfl, ih _ hlt _ [_] rfl]
          simp

theorem decode_nil : decode [] = [] := by simp [decode, decode.go]

theorem decode_cons (u : Nat) (rest : List Nat) :
    decode (u :: rest) = (piece u rest).1 :: decode (piece u rest).2 := by
  rw [decode, decode.go, decode_go]; rfl

/-- Text of a field that a zero unit ends early. -/
def text (units : List Nat) : String :=
  String.ofList (decode (units.takeWhile (· != 0)))

end WireCapture.Text.Utf16
