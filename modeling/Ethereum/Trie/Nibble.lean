import Ethereum.Bytes.Basic

/-!
# Nibbles

The keys of a trie are walked half a byte at a time. `nibbles` spells a byte string as half bytes,
high half first, and `compactPath` packs a path back into bytes behind a flag that says whether
the path ends at a value and whether its length is odd.
-/

namespace Ethereum.Trie

/-- Half a byte. -/
abbrev Nibble := Fin 16

/-- The half bytes of a byte string, high half first. -/
def nibbles (bs : Bytes) : List Nibble :=
  bs.flatMap fun b => [Fin.ofNat 16 (b.toNat / 16), Fin.ofNat 16 b.toNat]

/-- Packs half bytes into bytes, two at a time. -/
def pack : List Nibble → Bytes
  | hi :: lo :: rest => UInt8.ofNat (16 * hi.val + lo.val) :: pack rest
  | _ => []

/-- A path in bytes. The first half byte is 2 more for a path that ends at a value, and 1 more for a
path of odd length; a path of even length is filled up by a zero behind it. -/
def compactPath (endsAtValue : Bool) (path : List Nibble) : Bytes :=
  let flag : Nibble := if endsAtValue then 2 else 0
  if path.length % 2 = 1 then pack ((flag + 1) :: path) else pack (flag :: 0 :: path)

end Ethereum.Trie
