import Ethereum.Json.Number
import Ethereum.Json.Quoted

/-!
# Scalars in JSON

Values that hold no others: null, the two truth values, numbers and strings.
-/

namespace Ethereum.Json

open Reader

/-- A value that holds no other. -/
inductive Scalar where
  | null
  | bool (value : Bool)
  | number (value : Number)
  | string (value : String)
  deriving DecidableEq, Repr

/-- A word, which its first letter tells. That letter is taken only if it starts a word. -/
def readWord : Reader Scalar := do
  if ← take? 'n' then
    ['u', 'l', 'l'].forM expect
    return .null
  else if ← take? 't' then
    ['r', 'u', 'e'].forM expect
    return .bool true
  else
    take 'f'
    ['a', 'l', 's', 'e'].forM expect
    return .bool false

/-- Whether a byte starts a number. -/
def startsNumber (b : UInt8) : Bool := b = '-'.toUInt8 || Number.isDigit b

/-- A scalar. Of anything else nothing is taken. -/
def readScalar : Reader Scalar := do
  if ← take? '"' then return .string (← readString)
  else if (← token?).any startsNumber then return .number (← Number.read)
  else readWord

end Ethereum.Json
