import Ethereum.Bytes.Basic

/-!
# Byte strings of a fixed length

`FixedBytes n` is a byte string whose length is part of its type. Hashes, addresses, log blooms and
block nonces are such strings, of 32, 20, 256 and 8 bytes; the integers among them are read and
written big-endian.
-/

namespace Ethereum

/-- A byte string of exactly `n` bytes. -/
@[ext] structure FixedBytes (n : Nat) where
  /-- The bytes, first to last. -/
  toBytes : Bytes
  length_toBytes : toBytes.length = n
  deriving DecidableEq

namespace FixedBytes

variable {n : Nat}

attribute [simp] length_toBytes

/-- A byte string as a fixed one, if it has the right length. -/
def ofBytes? (n : Nat) (bs : Bytes) : Option (FixedBytes n) :=
  if h : bs.length = n then some ⟨bs, h⟩ else none

/-- The string of zeros. -/
def zero (n : Nat) : FixedBytes n := ⟨List.replicate n 0, by simp⟩

instance : Inhabited (FixedBytes n) := ⟨zero n⟩

/-- The low `n` bytes of a number, most significant first. -/
def ofNat (n k : Nat) : FixedBytes n := ⟨Bytes.bigEndian n k, Bytes.length_bigEndian n k⟩

/-- The number that the bytes write, most significant first. -/
def toNat (bs : FixedBytes n) : Nat := Bytes.toNat bs.toBytes

/-- Fixed strings are ordered byte by byte. -/
instance : Ord (FixedBytes n) := ⟨fun a b => compare a.toBytes b.toBytes⟩

end FixedBytes

/-- A 32-byte digest. -/
abbrev Hash := FixedBytes 32

/-- The 20-byte name of an account. -/
abbrev Address := FixedBytes 20

/-- The 8 bytes that a proof-of-work search varies. -/
abbrev BlockNonce := FixedBytes 8

/-- A filter of 2048 bits over log entries. -/
abbrev Bloom := FixedBytes 256

namespace BlockNonce

/-- A nonce from the integer it writes, big-endian. -/
def ofUInt64 (n : UInt64) : BlockNonce := FixedBytes.ofNat 8 n.toNat

/-- The integer that a nonce writes, big-endian. -/
def toUInt64 (nonce : BlockNonce) : UInt64 := UInt64.ofNat nonce.toNat

end BlockNonce

/-- An unsigned integer of 256 bits. -/
abbrev UInt256 := BitVec 256

/-- A number as an integer of 256 bits, if it is one. -/
def UInt256.ofNat? (n : Nat) : Option UInt256 :=
  let value := BitVec.ofNat 256 n
  if value.toNat = n then some value else none

end Ethereum
