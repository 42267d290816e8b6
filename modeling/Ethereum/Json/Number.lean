import Ethereum.Json.Reader

/-!
# Numbers in JSON

A number is read as far as the readers of values need it: as a natural number if it is written as
one. A number that is not zero and has a huge exponent stands for none that can be held. It is
known by a digit of its exponent, and the digits behind that one are left.
-/

namespace Ethereum.Json

/-- A number. -/
inductive Number where
  /-- Digits alone. -/
  | natural (n : Nat)
  /-- Digits with a sign, a fraction or an exponent. -/
  | other
  /-- A number with a huge exponent. Further digits of the exponent may follow. -/
  | huge
  deriving DecidableEq, Repr

namespace Number

/-- The number with a minus sign before it. -/
def negate : Number → Number
  | .natural _ => .other
  | number => number

/-- The largest exponent that is not huge. -/
def maxExponent : Nat := 2147483647

/-- Whether a byte is a decimal digit. -/
def isDigit (b : UInt8) : Bool := '0'.toUInt8 ≤ b && b ≤ '9'.toUInt8

/-- The value of a digit. -/
def digitValue (b : UInt8) : Nat := (b - '0'.toUInt8).toNat

/-- The number that digits write. -/
def valueOf (digits : Bytes) : Nat := digits.foldl (fun n b => 10 * n + digitValue b) 0

/-- Reads on in the digits of an exponent. `isSmall` says that no exponent makes the number too
large. -/
def exponentRest (isSmall : Bool) : (exponent : Nat) → Bytes → Number × Bytes
  | _, [] => (.other, [])
  | exponent, b :: rest =>
    if isDigit b then
      if 10 * exponent + digitValue b ≤ maxExponent then
        exponentRest isSmall (10 * exponent + digitValue b) rest
      else if isSmall then (.other, rest.dropWhile isDigit)
      else (.huge, rest)
    else (.other, b :: rest)

open Reader

/-- The whole part of a number: a zero, or digits that start with another one. -/
def readWhole : Reader Bytes := do
  let first ← next
  guard (isDigit first)
  if first = '0'.toUInt8 then
    guard (!(← peek?).any isDigit)
    return [first]
  else return first :: (← takeWhile isDigit)

/-- The digits of a fraction. Without a point there are none. -/
def readFraction : Reader Bytes := do
  if (← peek?) = some '.'.toUInt8 then
    drop
    let digits ← takeWhile isDigit
    guard (!digits.isEmpty)
    return digits
  else return []

/-- The rest of a number behind the letter that starts its exponent. `isZero` says that its digits
are all zero. -/
def readExponent (isZero : Bool) : Reader Number := do
  let sign ← peek?
  if sign = some '+'.toUInt8 ∨ sign = some '-'.toUInt8 then drop
  let first ← next
  guard (isDigit first)
  modifyGet (exponentRest (isZero || sign = some '-'.toUInt8) (digitValue first))

/-- A number without a sign. -/
def readUnsigned : Reader Number := do
  let whole ← readWhole
  let fraction ← readFraction
  let letter ← peek?
  if letter = some 'e'.toUInt8 ∨ letter = some 'E'.toUInt8 then
    drop
    readExponent ((whole ++ fraction).all (digitValue · = 0))
  else if fraction.isEmpty then return .natural (valueOf whole)
  else return .other

/-- A number. -/
def read : Reader Number := do
  if (← peek?) = some '-'.toUInt8 then
    drop
    return (← readUnsigned).negate
  else readUnsigned

end Number

end Ethereum.Json
