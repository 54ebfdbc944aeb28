import WireCapture.Single.Decimal

/-!
# JSON documents

Documents as they are printed: objects keep the order of their fields, and
single-precision numbers are a kind of value of their own.
-/
namespace WireCapture

inductive Json
  | null
  | bool (b : Bool)
  | number (n : Int)
  | single (x : Single)
  | string (s : String)
  | array (items : List Json)
  | object (fields : List (String × Json))
  deriving Repr

namespace Json

def nat (n : Nat) : Json := .number n

def ofOption {α : Type} (f : α → Json) : Option α → Json
  | none => .null
  | some a => f a

end Json

end WireCapture
