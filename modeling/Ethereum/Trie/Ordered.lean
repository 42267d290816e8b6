import Ethereum.Rlp.Scalar
import Ethereum.Trie.Node

/-!
# Ordered roots

A list is committed to by the trie that holds the encoding of each item at the encoding of its
index. Headers carry such roots for the transactions and the receipts of their block.
-/

namespace Ethereum.Trie

variable {α : Type}

/-- The entries of a list: each item's encoding, at the encoding of its index. -/
def orderedEntries (c : Rlp.Codec α) (items : List α) : List Entry :=
  items.zipIdx.map fun (item, index) => (nibbles (Rlp.Codec.encodeNat index), c.encode item)

/-- The trie of a list. -/
def ordered (c : Rlp.Codec α) (items : List α) : Node := .ofEntries (orderedEntries c items)

/-- The root of the trie of a list. -/
def orderedRoot [HashFunction] (c : Rlp.Codec α) (items : List α) : Hash := (ordered c items).root

end Ethereum.Trie
