import Ethereum.Json.Reader
import Ethereum.Text.Numeral
import Ethereum.Text.Utf8

/-!
# Strings in JSON

A string is read byte by byte behind its opening quote. Control characters must be escaped. An
escape by number is a code unit, and the string is a text if each is a character or, together with
the next one, a surrogate pair. A string that is passed over need not be a text.
-/

namespace Ethereum.Json

/-! ## Escapes -/

/-- The letters that stand for a character behind a backslash. -/
def simpleEscapes : List (Char × Char) :=
  [('"', '"'), ('\\', '\\'), ('/', '/'), ('b', '\x08'), ('f', '\x0c'), ('n', '\n'), ('r', '\r'),
    ('t', '\t')]

/-- The character that a letter behind a backslash stands for. -/
def simpleEscape? (letter : UInt8) : Option Char :=
  simpleEscapes.findSome? fun (written, c) => if letter = written.toUInt8 then some c else none

/-- The number that hexadecimal digits write. -/
def codeUnit? (digits : Bytes) : Option Nat :=
  Text.ofDigits? 16 (digits.map fun b => Char.ofNat b.toNat)

/-- Whether a code unit is the first half of a surrogate pair. -/
def isHighHalf (n : Nat) : Bool := 0xd800 ≤ n && n < 0xdc00

/-- Whether a code unit is the second half of a surrogate pair. -/
def isLowHalf (n : Nat) : Bool := 0xdc00 ≤ n && n < 0xe000

/-- The character of a surrogate pair. -/
def ofHalves (high low : Nat) : Char :=
  Char.ofNat (0x10000 + 0x400 * (high - 0xd800) + (low - 0xdc00))

/-! ## Bytes of a string -/

/-- Where a reader stands in a string. -/
inductive StringPlace where
  /-- Between characters. -/
  | between
  /-- Behind a backslash. -/
  | escape
  /-- In a code unit, behind its digits, last one first. Given the first half of a surrogate pair,
  the code unit must be the second one. -/
  | codeUnit (high : Option Nat) (digits : Bytes)
  /-- Behind the first half of a surrogate pair. -/
  | half (high : Nat)
  /-- Behind the first half of a surrogate pair and a backslash. -/
  | halfEscape (high : Nat)
  deriving DecidableEq, Repr

namespace StringPlace

/-- The place behind an escape, and the bytes of the character that it stands for. -/
def behind (c : Char) : StringPlace × Bytes := (.between, String.utf8EncodeChar c)

/-- The place behind a code unit, and the bytes of a character that it completes. -/
def behindCodeUnit? (high : Option Nat) (n : Nat) : Option (StringPlace × Bytes) :=
  match high with
  | some high => if isLowHalf n then some (behind (ofHalves high n)) else none
  | none =>
    if isHighHalf n then some (.half n, [])
    else if isLowHalf n then none
    else some (behind (Char.ofNat n))

/-- The place behind a byte, and the bytes that it adds to the string, if it can stand there.
Unless the string must be a text, a code unit can be any number, and adds nothing. -/
def step? (isText : Bool) (place : StringPlace) (b : UInt8) : Option (StringPlace × Bytes) :=
  match place with
  | .between =>
    if b = '\\'.toUInt8 then some (.escape, [])
    else if b < ' '.toUInt8 then none
    else some (.between, [b])
  | .escape =>
    if b = 'u'.toUInt8 then some (.codeUnit none [], [])
    else (simpleEscape? b).map behind
  | .codeUnit high digits =>
    if digits.length < 3 then some (.codeUnit high (b :: digits), [])
    else (codeUnit? (b :: digits).reverse).bind fun n =>
      if isText then behindCodeUnit? high n else some (.between, [])
  | .half high => if b = '\\'.toUInt8 then some (.halfEscape high, []) else none
  | .halfEscape high => if b = 'u'.toUInt8 then some (.codeUnit (some high) [], []) else none

/-- Reads on up to the closing quote; `read` holds the bytes of the string so far, last one first.
A byte that cannot stand where it does is taken. -/
def readFrom (isText : Bool) : StringPlace → (read : Bytes) → Bytes → Option Bytes × Bytes
  | _, _, [] => (none, [])
  | place, read, b :: rest =>
    if place = .between ∧ b = '"'.toUInt8 then (some read.reverse, rest)
    else match place.step? isText b with
      | some (place, found) => readFrom isText place (found.reverse ++ read) rest
      | none => (none, rest)

end StringPlace

/-! ## Strings -/

/-- A text, behind its opening quote. -/
def readString : Reader String := do
  let content ← OptionT.mk (StringPlace.readFrom true .between [])
  let some text := Text.ofUtf8? content | failure
  return text

/-- Passes over a string behind its opening quote. -/
def skipString : Reader Unit := do
  let _ ← OptionT.mk (StringPlace.readFrom false .between [])

end Ethereum.Json
