import Ethereum.Bytes.Fixed
import Ethereum.Text.Blank
import Ethereum.Text.Quoted
import Ethereum.Text.Utf8

/-!
# Hexadecimal text

Bytes are written as pairs of lower-case digits behind `0x`. Two grammars read them back, and both
take digits of either case and look at the bytes of a text, not at its characters:

* `decodeFixed` reads a text for exactly `n` bytes. The text may start with `0x` or `0X`; its whole
  length must be even.
* `decodeInput` reads a text of any length, between blanks, that may start with `0x`.

A fault names the first offending byte and its position among the digits.
-/

namespace Ethereum.Hex

open Text (hexDigit quoteByte toUtf8)

/-- Why a text is not hexadecimal. -/
inductive Error where
  /-- An odd number of digits. -/
  | oddLength
  /-- Digits for another number of bytes than needed. -/
  | wrongLength
  /-- A byte that is no digit, and its position among the digits. -/
  | badDigit (byte : UInt8) (position : Nat)
  deriving DecidableEq, Repr

/-- The fault of a fixed-length text, in words. -/
def Error.message : Error → String
  | .oddLength => "odd number of digits"
  | .wrongLength => "invalid string length"
  | .badDigit byte position => s!"invalid character {quoteByte byte} at position {position}"

/-- The fault of a text of any length, in words. -/
def Error.inputMessage : Error → String
  | .oddLength => "Odd number of digits"
  | .wrongLength => "Invalid string length"
  | .badDigit byte position => s!"Invalid character {quoteByte byte} at position {position}"

/-! ## Writing -/

/-- The two digits of a byte. -/
def digitsOfByte (b : UInt8) : List Char := [hexDigit (b.toNat / 16), hexDigit (b.toNat % 16)]

/-- The digits of a byte string. -/
def digits (bs : Bytes) : List Char := bs.flatMap digitsOfByte

/-- A byte string behind `0x`. -/
def encode (bs : Bytes) : String := String.ofList ('0' :: 'x' :: digits bs)

/-- A number behind `0x`, without leading zeros. -/
def encodeNat (n : Nat) : String := String.ofList ('0' :: 'x' :: Nat.toDigits 16 n)

/-! ## Reading -/

/-- The value of a digit of either case, given as a byte. -/
def valueOf? (b : UInt8) : Option Nat :=
  let n := b.toNat
  if 48 ≤ n ∧ n ≤ 57 then some (n - 48)
  else if 97 ≤ n ∧ n ≤ 102 then some (n - 87)
  else if 65 ≤ n ∧ n ≤ 70 then some (n - 55)
  else none

/-- Reads pairs of digits; `read` holds the bytes so far, last one first, and `position` counts the
digits before. -/
def decodePairs : Bytes → (position : Nat) → (read : Bytes) → Except Error Bytes
  | [], _, read => .ok read.reverse
  | [_], _, _ => .error .oddLength
  | hi :: lo :: rest, position, read =>
    match valueOf? hi, valueOf? lo with
    | some h, some l => decodePairs rest (position + 2) (UInt8.ofNat (16 * h + l) :: read)
    | none, _ => .error (.badDigit hi position)
    | some _, none => .error (.badDigit lo (position + 1))

/-- Reads digits. An odd number of them is refused before any is looked at. -/
def decodeDigits (text : Bytes) : Except Error Bytes :=
  if text.length % 2 = 1 then .error .oddLength else decodePairs text 0 []

/-- A text without a leading `0x` or `0X`. -/
def dropMarker : List Char → List Char
  | '0' :: 'x' :: rest => rest
  | '0' :: 'X' :: rest => rest
  | text => text

/-- Reads a text for a string of any length. -/
def decode (text : List Char) : Except Error Bytes :=
  if (toUtf8 text).length % 2 = 1 then .error .oddLength
  else decodePairs (toUtf8 (dropMarker text)) 0 []

/-- Reads a text for exactly `n` bytes. -/
def decodeFixed (n : Nat) (text : List Char) : Except Error (FixedBytes n) :=
  if (toUtf8 text).length % 2 = 1 then .error .oddLength
  else if (toUtf8 (dropMarker text)).length ≠ 2 * n then .error .wrongLength
  else do
    let bs ← decodePairs (toUtf8 (dropMarker text)) 0 []
    match FixedBytes.ofBytes? n bs with
    | some value => .ok value
    | none => .error .wrongLength

/-- A text without a leading `0x`. -/
def dropLowerMarker : List Char → List Char
  | '0' :: 'x' :: rest => rest
  | text => text

/-- Reads a text that a user gives: digits between blanks, behind `0x` or not. -/
def decodeInput (text : List Char) : Except Error Bytes :=
  decodeDigits (toUtf8 (dropLowerMarker (Text.trim text)))

end Ethereum.Hex

namespace Ethereum

/-- The digits of a fixed string, behind `0x`. -/
def FixedBytes.toHex {n : Nat} (bs : FixedBytes n) : String := Hex.encode bs.toBytes

/-- A 256-bit integer in hexadecimal, without leading zeros. -/
def UInt256.toHex (n : UInt256) : String := Hex.encodeNat n.toNat

end Ethereum
