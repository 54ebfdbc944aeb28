import WireCapture.Reader

/-!
# Script handlers

The script function that a header binds to its object.
-/
namespace WireCapture

structure ScriptBinding where
  version : UInt16
  function : String
  slot : UInt32
  deriving DecidableEq, Repr

def ScriptBinding.reader : Reader ScriptBinding := do
  let version ← Reader.version .script
  let function ← Reader.countedText 4
  let slot ← Reader.u32
  return { version, function, slot }

end WireCapture
