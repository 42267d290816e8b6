/-!
# What can be wrong with an encoding

One constructor per cause, and `Error.message` for their wording.
-/

namespace Ethereum.Rlp

/-- Why a byte string is not the encoding of a value. -/
inductive Error where
  /-- An integer that is wider than its type. -/
  | overflow
  /-- An integer or a length that starts with a zero byte. -/
  | leadingZero
  /-- The input ends before the item that it announces. -/
  | inputTooShort
  /-- A single small byte that is written with a head. -/
  | nonCanonicalSingleByte
  /-- A long head for a payload that a short one could announce. -/
  | nonCanonicalSize
  /-- A string of the wrong length for a fixed string. -/
  | unexpectedLength
  /-- A string where a list is needed. -/
  | unexpectedString
  /-- A list where a string is needed. -/
  | unexpectedList
  /-- A list whose items do not fill the length that it announces. -/
  | listLengthMismatch (expected got : Nat)
  /-- Anything else, in words. -/
  | custom (text : String)
  deriving DecidableEq, Repr

/-- The cause in words. -/
def Error.message : Error → String
  | .overflow => "overflow"
  | .leadingZero => "leading zero"
  | .inputTooShort => "input too short"
  | .nonCanonicalSingleByte => "non-canonical single byte"
  | .nonCanonicalSize => "non-canonical size"
  | .unexpectedLength => "unexpected length"
  | .unexpectedString => "unexpected string"
  | .unexpectedList => "unexpected list"
  | .listLengthMismatch expected got =>
    s!"unexpected list length (got {got}, expected {expected})"
  | .custom text => text

end Ethereum.Rlp
