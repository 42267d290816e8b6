import Ethereum.Keccak
import Ethereum.Text.Hex
import Ethereum.Text.Utf8

/-!
# Addresses with a checksum

An address is shown in hexadecimal with a checksum in the case of its letters: a letter is upper
case when the digit at its place in the Keccak-256 digest of the lower-case digits is 8 or more.
-/

namespace Ethereum.Address

/-- The high or the low half of byte `i / 2`, for an even or an odd `i`. -/
def nibbleAt (bs : Bytes) (i : Nat) : Nat :=
  let b := (bs.getD (i / 2) 0).toNat
  if i % 2 = 0 then b / 16 else b % 16

/-- The address behind `0x`, with the checksum in the case of its letters. -/
def toChecksumHex (address : Address) : String :=
  let digits := Hex.digits address.toBytes
  let hash := (Keccak.keccak256 (Text.toUtf8 digits)).toBytes
  let shown := digits.zipIdx.map fun (c, i) => if 8 ≤ nibbleAt hash i then c.toUpper else c
  String.ofList ('0' :: 'x' :: shown)

end Ethereum.Address
