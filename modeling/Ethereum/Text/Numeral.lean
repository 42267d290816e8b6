import Ethereum.Bytes.Fixed

/-!
# Numerals

Two grammars for integers in text. `decimal64` takes decimal digits with at most one plus sign
before them. `numeral256` takes digits of a base that the text may start by naming, in either case,
with underscores anywhere among them.
-/

namespace Ethereum.Text

/-- The value of a digit or a letter: letters of either case go on after 9. -/
def digitValue? (c : Char) : Option Nat :=
  let n := c.toNat
  if 48 ≤ n ∧ n ≤ 57 then some (n - 48)
  else if 97 ≤ n ∧ n ≤ 122 then some (n - 87)
  else if 65 ≤ n ∧ n ≤ 90 then some (n - 55)
  else none

/-- The number that digits write in a base, if each is a digit of that base. -/
def ofDigits? (base : Nat) (digits : List Char) : Option Nat :=
  digits.foldl
    (fun value? c =>
      match value?, digitValue? c with
      | some value, some digit => if digit < base then some (base * value + digit) else none
      | _, _ => none)
    (some 0)

/-- The integer of 64 bits that a decimal text writes. -/
def decimal64 (text : List Char) : Option UInt64 :=
  let digits := match text with
    | '+' :: rest => rest
    | _ => text
  if digits.isEmpty then none
  else match ofDigits? 10 digits with
    | some n => if n < UInt64.size then some (UInt64.ofNat n) else none
    | none => none

/-- The base that a text names by how it starts, and the rest of the text. -/
def splitBase : List Char → Nat × List Char
  | '0' :: 'x' :: rest => (16, rest)
  | '0' :: 'X' :: rest => (16, rest)
  | '0' :: 'o' :: rest => (8, rest)
  | '0' :: 'O' :: rest => (8, rest)
  | '0' :: 'b' :: rest => (2, rest)
  | '0' :: 'B' :: rest => (2, rest)
  | text => (10, text)

/-- The integer of 256 bits that a text writes in the base that it names. Without any digits it is
zero. -/
def numeral256 (text : List Char) : Option UInt256 :=
  let (base, digits) := splitBase text
  (ofDigits? base (digits.filter (· ≠ '_'))).bind UInt256.ofNat?

end Ethereum.Text
