import WireCapture.Json

/-!
# Printing documents

The compact form has no blanks. The pretty form puts every item on a line of its
own, two blanks deeper than its container.
-/
namespace WireCapture.Json

def escape (c : Char) : List Char :=
  let n := c.toNat
  if c = '"' then ['\\', '"']
  else if c = '\\' then ['\\', '\\']
  else if n = 0x08 then ['\\', 'b']
  else if n = 0x0C then ['\\', 'f']
  else if n = 0x0A then ['\\', 'n']
  else if n = 0x0D then ['\\', 'r']
  else if n = 0x09 then ['\\', 't']
  else if n < 0x20 then
    ['\\', 'u', '0', '0', Nat.digitChar (n / 16), Nat.digitChar (n % 16)]
  else [c]

def quoted (s : String) : List Char := '"' :: s.toList.flatMap escape ++ ['"']

def integer : Int → List Char
  | .ofNat n => Nat.toDigits 10 n
  | .negSucc n => '-' :: Nat.toDigits 10 (n + 1)

/-- Exponents of the first digit from which on positional notation ends. -/
structure DecimalFormat where
  least : Int
  greatest : Int

/-- Positional from 0.000001 up to thirteen digits before the point. -/
def decimalFormat : DecimalFormat := ⟨-6, 12⟩

/-- Digits with a point among, before or behind them, and at least one digit on
either side of it. -/
def positional (d : Decimal) : List Char :=
  let ds := d.digits
  if 0 ≤ d.exponent then ds ++ List.replicate d.exponent.toNat '0' ++ ['.', '0']
  else if 0 ≤ d.leading then
    let whole := d.leading.toNat + 1
    ds.take whole ++ '.' :: ds.drop whole
  else '0' :: '.' :: List.replicate (-d.leading - 1).toNat '0' ++ ds

/-- One digit before the point, no point without a digit behind it, and an
exponent that always has a sign. -/
def scientific (d : Decimal) : List Char :=
  let mantissa := match d.digits with
    | a :: b :: ds => a :: '.' :: b :: ds
    | ds => ds
  let sign := if d.leading < 0 then '-' else '+'
  mantissa ++ 'e' :: sign :: Nat.toDigits 10 d.leading.natAbs

def decimal (d : Decimal) : List Char :=
  if decimalFormat.least ≤ d.leading ∧ d.leading ≤ decimalFormat.greatest then positional d
  else scientific d

/-- No number stands for what is not finite. -/
def singleText (x : Single) : List Char :=
  if x.isFinite then
    if x.isNegative then '-' :: decimal x.shortest else decimal x.shortest
  else "null".toList

/-- Puts a text in front of what follows it. -/
abbrev Writer := List Char → List Char

def Writer.text (cs : List Char) : Writer := (cs ++ ·)

/-- Writers one after the other, with a text between two of them. -/
def Writer.between (sep : List Char) (ws : List Writer) : Writer := fun rest =>
  (ws.intersperse (Writer.text sep)).foldr (fun w rest => w rest) rest

theorem sizeOf_field_lt {f : String × Json} {fields : List (String × Json)}
    (h : f ∈ fields) : sizeOf f.2 < 1 + sizeOf fields := by
  have hf := List.sizeOf_lt_of_mem h
  have hs : sizeOf f.2 < sizeOf f := by
    cases f
    simp only [Prod.mk.sizeOf_spec]
    omega
  omega

def compact : Json → Writer
  | null => .text "null".toList
  | bool b => .text (if b then "true" else "false").toList
  | number n => .text (integer n)
  | single x => .text (singleText x)
  | string s => .text (quoted s)
  | array items => fun rest =>
      '[' :: Writer.between [','] (items.map fun j => compact j) (']' :: rest)
  | object fields => fun rest =>
      '{' :: Writer.between [',']
        (fields.map fun f rest => quoted f.1 ++ ':' :: compact f.2 rest) ('}' :: rest)
termination_by j => sizeOf j
decreasing_by
  · have := List.sizeOf_lt_of_mem ‹j ∈ items›
    simp only [array.sizeOf_spec]
    omega
  · have := sizeOf_field_lt ‹f ∈ fields›
    simpa only [object.sizeOf_spec] using this

def newline (depth : Nat) : List Char := '\n' :: List.replicate (2 * depth) ' '

/-- Brackets around items, each on a line of its own. -/
def block (opening closing : Char) (depth : Nat) (items : List Writer) : Writer := fun rest =>
  if items.isEmpty then opening :: closing :: rest
  else
    opening :: newline (depth + 1) ++
      Writer.between (',' :: newline (depth + 1)) items (newline depth ++ closing :: rest)

def pretty (depth : Nat) : Json → Writer
  | null => .text "null".toList
  | bool b => .text (if b then "true" else "false").toList
  | number n => .text (integer n)
  | single x => .text (singleText x)
  | string s => .text (quoted s)
  | array items => block '[' ']' depth (items.map fun j => pretty (depth + 1) j)
  | object fields =>
      block '{' '}' depth
        (fields.map fun f rest => quoted f.1 ++ ':' :: ' ' :: pretty (depth + 1) f.2 rest)
termination_by j => sizeOf j
decreasing_by
  · have := List.sizeOf_lt_of_mem ‹j ∈ items›
    simp only [array.sizeOf_spec]
    omega
  · have := sizeOf_field_lt ‹f ∈ fields›
    simpa only [object.sizeOf_spec] using this

inductive Format
  | compact
  | pretty
  deriving DecidableEq, Repr

def render (j : Json) : Format → String
  | .compact => String.ofList (j.compact [])
  | .pretty => String.ofList (j.pretty 0 [])

end WireCapture.Json
