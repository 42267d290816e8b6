import Ethereum.Json.Scalar
import Ethereum.Text.Hex

/-!
# Integers, byte strings and lists in JSON

How values without named parts are read: integers from numbers or numerals, byte strings from
hexadecimal text or from arrays of bytes, lists from arrays.
-/

namespace Ethereum.Json

open Reader

variable {α : Type}

/-! ## Integers -/

/-- An integer of 64 bits, as a number. -/
def readUInt64 : Reader UInt64 := do
  match ← readScalar with
  | .number (.natural n) =>
    guard (n < UInt64.size)
    return UInt64.ofNat n
  | _ => failure

/-- An integer of 256 bits: a number of up to 64 bits, or any numeral as a string. -/
def readUInt256 : Reader UInt256 := do
  match ← readScalar with
  | .number (.natural n) =>
    guard (n < UInt64.size)
    return BitVec.ofNat 256 n
  | .string text =>
    let some n := Text.numeral256 text.toList | failure
    return n
  | _ => failure

/-- A byte, as a number. -/
def readByte : Reader UInt8 := do
  match ← readScalar with
  | .number (.natural n) =>
    guard (n < UInt8.size)
    return UInt8.ofNat n
  | _ => failure

/-- A text. -/
def readText : Reader String := do
  match ← readScalar with
  | .string text => return text
  | _ => failure

/-! ## Lists -/

/-- Reads the items of an array from the first one on; `read` holds those before, last one first.
The fuel bounds how many there can be. -/
def readItems (item : Reader α) : (fuel : Nat) → (read : List α) → Reader (List α)
  | 0, _ => failure
  | fuel + 1, read => do
    let value ← item
    if ← take? ',' then readItems item fuel (value :: read)
    else
      take ']'
      return (value :: read).reverse

/-- An array of any number of items. -/
def readList (item : Reader α) : Reader (List α) := do
  take '['
  if ← take? ']' then return []
  else readItems item (← get).length []

/-! ## Byte strings -/

/-- A byte string, as hexadecimal text or as an array of bytes. -/
def readBytes : Reader Bytes := do
  if (← token?) = some '['.toUInt8 then readList readByte
  else
    let .ok bs := Hex.decode (← readText).toList | failure
    return bs

/-- Reads `n` more bytes of an array, and the commas between all of them; `read` holds the bytes
before, last one first. -/
def readMoreBytes : (n : Nat) → (read : Bytes) → Reader Bytes
  | 0, read => return read.reverse
  | n + 1, read => do
    unless read.isEmpty do take ','
    readMoreBytes n ((← readByte) :: read)

/-- Closes an array that has all the bytes that it needs. There must not be one more byte; the
closing bracket stands where the attempt to read one fails. -/
def closeFixed : Reader Unit := do
  let more ← attempt do
    take ','
    readByte
  guard more.isNone
  take ']'

/-- A byte string of exactly `n` bytes, as hexadecimal text or as an array of bytes. -/
def readFixed (n : Nat) : Reader (FixedBytes n) := do
  if ← take? '[' then
    let bs ← readMoreBytes n []
    closeFixed
    let some value := FixedBytes.ofBytes? n bs | failure
    return value
  else
    let .ok value := Hex.decodeFixed n (← readText).toList | failure
    return value

/-- An account, or null for none. -/
def readRecipient : Reader (Option Address) := do
  if (← token?) = some 'n'.toUInt8 then
    let _ ← readWord
    return none
  else return some (← readFixed 20)

end Ethereum.Json
