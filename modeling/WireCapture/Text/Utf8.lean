import WireCapture.Word

/-!
# UTF-8

Strict and lossy decoding of a byte string. Bytes are cut into the longest
pieces that are a character or the beginning of one (a maximal subpart); a piece
that is no character becomes one replacement character.
-/
namespace WireCapture.Text.Utf8

def encode (s : String) : Bytes := s.toList.flatMap String.utf8EncodeChar

def isTail (b : UInt8) : Bool := 0x80 ≤ b && b ≤ 0xBF

/-- Second bytes that may follow the first byte of a three-byte character:
no overlong form and no surrogate. -/
def isSecondOfThree (a b : UInt8) : Bool :=
  if a = 0xE0 then 0xA0 ≤ b && b ≤ 0xBF
  else if a = 0xED then 0x80 ≤ b && b ≤ 0x9F
  else isTail b

/-- Second bytes that may follow the first byte of a four-byte character:
no overlong form and nothing above U+10FFFF. -/
def isSecondOfFour (a b : UInt8) : Bool :=
  if a = 0xF0 then 0x90 ≤ b && b ≤ 0xBF
  else if a = 0xF4 then 0x80 ≤ b && b ≤ 0x8F
  else isTail b

def two (a b : UInt8) : Char :=
  Char.ofNat ((a.toNat - 0xC0) * 64 + (b.toNat - 0x80))

def three (a b c : UInt8) : Char :=
  Char.ofNat ((a.toNat - 0xE0) * 4096 + (b.toNat - 0x80) * 64 + (c.toNat - 0x80))

def four (a b c d : UInt8) : Char :=
  Char.ofNat ((a.toNat - 0xF0) * 262144 + (b.toNat - 0x80) * 4096 +
    (c.toNat - 0x80) * 64 + (d.toNat - 0x80))

/-- The piece that starts with byte `a`: its character, if it is one, and the
bytes after it. -/
def piece (a : UInt8) (rest : Bytes) : Option Char × Bytes :=
  if a < 0x80 then (some (Char.ofNat a.toNat), rest)
  else if 0xC2 ≤ a && a ≤ 0xDF then
    match rest with
    | b :: rest₁ => if isTail b then (some (two a b), rest₁) else (none, rest)
    | [] => (none, [])
  else if 0xE0 ≤ a && a ≤ 0xEF then
    match rest with
    | b :: rest₁ =>
        if isSecondOfThree a b then
          match rest₁ with
          | c :: rest₂ => if isTail c then (some (three a b c), rest₂) else (none, rest₁)
          | [] => (none, [])
        else (none, rest)
    | [] => (none, [])
  else if 0xF0 ≤ a && a ≤ 0xF4 then
    match rest with
    | b :: rest₁ =>
        if isSecondOfFour a b then
          match rest₁ with
          | c :: rest₂ =>
              if isTail c then
                match rest₂ with
                | d :: rest₃ =>
                    if isTail d then (some (four a b c d), rest₃) else (none, rest₂)
                | [] => (none, [])
              else (none, rest₁)
          | [] => (none, [])
        else (none, rest)
    | [] => (none, [])
  else (none, rest)

theorem length_piece_le (a : UInt8) (rest : Bytes) :
    (piece a rest).2.length ≤ rest.length := by
  unfold piece
  repeat' split
  all_goals simp_all only [List.length_cons, List.length_nil]
  all_goals omega

/-- All pieces of a byte string, in order. -/
def pieces (bs : Bytes) : List (Option Char) := go bs []
where
  go : Bytes → List (Option Char) → List (Option Char)
    | [], done => done.reverse
    | a :: rest, done => go (piece a rest).2 ((piece a rest).1 :: done)
  termination_by bs => bs.length
  decreasing_by exact Nat.lt_succ_of_le (length_piece_le a rest)

theorem pieces_go (bs : Bytes) (done : List (Option Char)) :
    pieces.go bs done = done.reverse ++ pieces bs := by
  generalize hn : bs.length = n
  induction n using Nat.strongRecOn generalizing bs done with
  | ind n ih =>
      subst hn
      cases bs with
      | nil => simp [pieces, pieces.go]
      | cons a rest =>
          have hlt := Nat.lt_succ_of_le (length_piece_le a rest)
          rw [pieces, pieces.go, pieces.go, ih _ hlt _ _ rfl, ih _ hlt _ [_] rfl]
          simp

theorem pieces_nil : pieces [] = [] := by simp [pieces, pieces.go]

theorem pieces_cons (a : UInt8) (rest : Bytes) :
    pieces (a :: rest) = (piece a rest).1 :: pieces (piece a rest).2 := by
  rw [pieces, pieces.go, pieces_go]; rfl

/-- Ill-formed pieces become U+FFFD. -/
def decodeLossy (bs : Bytes) : String :=
  String.ofList ((pieces bs).map fun c => c.getD '\uFFFD')

/-- No text unless every piece is a character. -/
def decode? (bs : Bytes) : Option String :=
  let cs := pieces bs
  if cs.all Option.isSome then some (String.ofList (cs.filterMap id)) else none

/-- Text of a field that a NUL byte ends early. -/
def cString (bs : Bytes) : String := decodeLossy (bs.takeWhile (· != 0))

end WireCapture.Text.Utf8
