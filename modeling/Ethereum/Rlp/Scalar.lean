import Ethereum.Bytes.Fixed
import Ethereum.Rlp.Codec

/-!
# Formats of strings and integers

Integers are strings of their fewest bytes, most significant first, so that zero is the empty
string and no integer starts with a zero byte. The two widths of integer differ in which fault
comes first when a string is both too wide and starts with a zero byte.
-/

namespace Ethereum.Rlp.Codec

/-- Byte strings of any length. -/
def bytes : Codec Bytes where
  encode := encodeString
  length := stringSize
  decode := takePayload .string

/-- Byte strings of exactly `n` bytes. -/
def fixed (n : Nat) : Codec (FixedBytes n) where
  encode bs := encodeString bs.toBytes
  length bs := stringSize bs.toBytes
  decode bs := do
    let (payload, rest) ← takePayload .string bs
    match FixedBytes.ofBytes? n payload with
    | some value => .ok (value, rest)
    | none => .error .unexpectedLength

/-- The encoding of a natural number, of any size. -/
def encodeNat (n : Nat) : Bytes := encodeString (Bytes.ofNat n)

/-- The announced length of a natural number. -/
def natSize (n : Nat) : Nat :=
  if n < 0x80 then 1 else Head.size (Bytes.byteCount n) + Bytes.byteCount n

/-- Whether a string starts with a zero byte. -/
def hasLeadingZero (bs : Bytes) : Bool := bs.head? == some 0

/-- Integers of 64 bits. A string that is too wide is refused before one that starts with zero. -/
def uint64 : Codec UInt64 where
  encode n := encodeNat n.toNat
  length n := natSize n.toNat
  decode bs := do
    let (payload, rest) ← takePayload .string bs
    if 8 < payload.length then .error .overflow
    else if hasLeadingZero payload then .error .leadingZero
    else .ok (UInt64.ofNat (Bytes.toNat payload), rest)

/-- Integers of 256 bits. A string that starts with zero is refused before one that is too wide. -/
def uint256 : Codec UInt256 where
  encode n := encodeNat n.toNat
  length n := natSize n.toNat
  decode bs := do
    let (payload, rest) ← takePayload .string bs
    if hasLeadingZero payload then .error .leadingZero
    else if 32 < payload.length then .error .overflow
    else .ok (BitVec.ofNat 256 (Bytes.toNat payload), rest)

/-- An account, or none. None is the empty string, which no address is. -/
def recipient : Codec (Option Address) where
  encode
    | none => encodeString []
    | some address => (fixed 20).encode address
  length
    | none => 1
    | some address => (fixed 20).length address
  decode
    | [] => .error .inputTooShort
    | b :: rest =>
      if b = 0x80 then .ok (none, rest)
      else do
        let (address, rest) ← (fixed 20).decode (b :: rest)
        .ok (some address, rest)

end Ethereum.Rlp.Codec
