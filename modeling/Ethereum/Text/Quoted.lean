import Ethereum.Bytes.Basic

/-!
# Quoted bytes

How a message names a single byte of a text: as the character of that code point, between single
quotes, and escaped where it would not show.
-/

namespace Ethereum.Text

/-- The hexadecimal digit of a number below 16, in lower case. -/
def hexDigit (n : Nat) : Char :=
  if n < 10 then Char.ofNat (n + 48) else Char.ofNat (n + 87)

/-- Whether a code point below 256 has a shape of its own: it is no control character, no blank but
the space, and not the soft hyphen. -/
def isVisible (n : Nat) : Bool :=
  (0x20 ≤ n && n < 0x7f) || (0xa0 < n && n != 0xad)

/-- A code point by its number in hexadecimal, without leading zeros. -/
def escapeByNumber (n : Nat) : String :=
  let digits := if n < 16 then [hexDigit n] else [hexDigit (n / 16), hexDigit (n % 16)]
  String.ofList (['\\', 'u', '\x7b'] ++ digits ++ ['\x7d'])

/-- The character of a byte, as it stands between the quotes. -/
def escapeByte (b : UInt8) : String :=
  let n := b.toNat
  if n = 0x00 then "\\0"
  else if n = 0x09 then "\\t"
  else if n = 0x0a then "\\n"
  else if n = 0x0d then "\\r"
  else if n = 0x27 then "\\'"
  else if n = 0x5c then "\\\\"
  else if isVisible n then String.singleton (Char.ofNat n)
  else escapeByNumber n

/-- The character of a byte between single quotes. -/
def quoteByte (b : UInt8) : String := "'" ++ escapeByte b ++ "'"

end Ethereum.Text
