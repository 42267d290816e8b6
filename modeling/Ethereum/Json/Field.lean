import Ethereum.Json.Skip
import Ethereum.Text.Utf8

/-!
# Fields of records in JSON

A record is read from an object, whose members may come in any order, or from an array of its
fields in their order. Members that the record does not have are passed over, whatever they hold.
-/

namespace Ethereum.Json

open Reader

variable {α : Type}

/-- A field of a record: its key, whether it must be given, and how it is read into the record. -/
structure Field (α : Type) where
  name : String
  isRequired : Bool
  read : Reader (α → α)

/-- The field with this key whose value is put into the record by `write`. -/
def field {β : Type} (name : String) (read : Reader β) (write : β → α → α) : Field α where
  name
  isRequired := true
  read := write <$> read

/-- The same field, but one that may be left out. -/
def Field.optional (field : Field α) : Field α := { field with isRequired := false }

/-! ## Arrays -/

/-- Reads the items of an array as the given fields, in order. Fields that may be left out may be
missing at its end. -/
def readPositional : List (Field α) → α → Reader α
  | [], _ => failure
  | next :: more, start => do
    let value := (← next.read) start
    if ← take? ',' then readPositional more value
    else
      take ']'
      guard (more.all (!·.isRequired))
      return value

/-! ## Objects -/

/-- Reads the value of one member into a record, or passes over it if the record has no such key.
A key of the record may come only once; `seen` are those that have come. -/
def readMember (fields : List (Field α)) (seen : List String) (start : α) (key : String) :
    Reader (α × List String) := do
  match fields.find? (·.name == key) with
  | some known =>
    guard (!seen.contains key)
    return ((← known.read) start, key :: seen)
  | none =>
    skipValue
    return (start, seen)

/-- Reads the members of an object from the first one on. All keys that are required must come. The
fuel bounds how many members there can be. -/
def readMembers (fields : List (Field α)) : (fuel : Nat) → (seen : List String) → α → Reader α
  | 0, _, _ => failure
  | fuel + 1, seen, start => do
    take '"'
    let key ← readString
    take ':'
    let (value, seen) ← readMember fields seen start key
    if ← take? ',' then readMembers fields fuel seen value
    else
      take '\x7d'
      guard (fields.all fun f => !f.isRequired || seen.contains f.name)
      return value

/-! ## Records -/

/-- Closes a record that nothing is given of, if it ends here. No field may then be required. -/
def closeEmpty (fields : List (Field α)) (close : Char) : Reader Bool := do
  if ← take? close then
    guard (fields.all (!·.isRequired))
    return true
  else return false

/-- A record, as an object or as an array. Fields that are left out stay as in `start`. -/
def readRecord (fields : List (Field α)) (start : α) : Reader α := do
  if ← take? '\x7b' then
    if ← closeEmpty fields '\x7d' then return start
    else readMembers fields (← get).length [] start
  else
    take '['
    if ← closeEmpty fields ']' then return start
    else readPositional fields start

/-- The value that all of a text holds. -/
def readDocument (read : Reader α) (text : String) : Option α :=
  read.readAll (Text.toUtf8 text.toList)

end Ethereum.Json
