import Ethereum.Bytes.Basic

/-!
# Readers of JSON

A reader takes a value off the front of the bytes of a text. One that finds no value keeps what it
took: it leaves the bytes behind the place where it stopped. Blanks may stand before every token;
they are space, tab and the two ends of line.
-/

namespace Ethereum.Json

/-- Takes a value off the front of the bytes of a text, or fails and leaves the bytes behind the
place where it stopped. -/
abbrev Reader (α : Type) := OptionT (StateM Bytes) α

namespace Reader

variable {α : Type}

/-! ## Bytes -/

/-- The next byte, which is not taken. At the end there is none. -/
def peek? : Reader (Option UInt8) := return (← get).head?

/-- Passes over the next byte. -/
def drop : Reader Unit := modify List.tail

/-- Takes the next byte, of which there must be one. -/
def next : Reader UInt8 := do
  match ← get with
  | [] => failure
  | b :: rest =>
    set rest
    return b

/-- Takes the next byte, which must be the given character. Another one is taken as well. -/
def expect (c : Char) : Reader Unit := do
  guard ((← next) = c.toUInt8)

/-- Takes the bytes at the front that have a property. -/
def takeWhile (p : UInt8 → Bool) : Reader Bytes := do
  let bs ← get
  set (bs.dropWhile p)
  return bs.takeWhile p

/-! ## Tokens -/

/-- Whether a byte may stand between tokens. -/
def isBlank (b : UInt8) : Bool :=
  b = ' '.toUInt8 || b = '\t'.toUInt8 || b = '\n'.toUInt8 || b = '\r'.toUInt8

/-- The first byte of the next token, which is not taken. At the end there is none. -/
def token? : Reader (Option UInt8) := do
  modify (·.dropWhile isBlank)
  peek?

/-- Whether the next token starts with a character, which is then taken. -/
def take? (c : Char) : Reader Bool := do
  if (← token?) = some c.toUInt8 then
    drop
    return true
  else return false

/-- Takes a character that the next token must start with. Nothing else is taken. -/
def take (c : Char) : Reader Unit := do
  guard (← take? c)

/-! ## Runs -/

/-- What a reader gives, if it gives anything. What it takes is taken even if it fails. -/
def attempt (read : Reader α) : Reader (Option α) := OptionT.lift read.run

/-- The value that a reader finds in all of a text, but for blanks behind it. -/
def readAll (read : Reader α) (text : Bytes) : Option α :=
  let whole : Reader α := do
    let value ← read
    guard ((← token?) = none)
    return value
  (whole.run text).1

end Reader

end Ethereum.Json
