import Ethereum.HashFunction

/-!
# Log blooms

A bloom is a set of bits, read as a big-endian number of 2048 bits. An input selects three of them
by its digest; the bloom of a collection of inputs has exactly the bits that some input selects.
-/

namespace Ethereum.Bloom

/-- Whether bit `k` is set, counted from the least significant bit of the last byte. -/
def testBit (bloom : Bloom) (k : Nat) : Bool := bloom.toNat.testBit k

/-- The bloom without bits. -/
def empty : Bloom := FixedBytes.zero 256

/-- A bloom with bit `k` set as well, for `k` below 2048. -/
def insertBit (bloom : Bloom) (k : Nat) : Bloom where
  toBytes := bloom.toBytes.modify (255 - k / 8) (· ||| 1 <<< UInt8.ofNat (k % 8))
  length_toBytes := by simp

/-- The bits that are set in one of two blooms. -/
def union (a b : Bloom) : Bloom where
  toBytes := a.toBytes.zipWith (· ||| ·) b.toBytes
  length_toBytes := by simp

section
variable [HashFunction]

/-- The bits that an input selects: the first three byte pairs of its digest, each modulo 2048. -/
def positions (input : Bytes) : List Nat :=
  let hash := (digest input).toBytes
  [0, 2, 4].map fun i =>
    (256 * (hash.getD i 0).toNat + (hash.getD (i + 1) 0).toNat) % 2048

/-- A bloom with the bits of one more input. -/
def insert (bloom : Bloom) (input : Bytes) : Bloom := (positions input).foldl insertBit bloom

/-- The bloom of a list of inputs. -/
def ofInputs (inputs : List Bytes) : Bloom := inputs.foldl insert empty

end

end Ethereum.Bloom
