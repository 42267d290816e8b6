import Ethereum.Bytes.Fixed

/-!
# Hash functions

Trie roots, uncle hashes, transaction and header identities are all digests. They are stated over
an arbitrary hash function, so that what a digest binds can be said of any function that does not
collide on the strings at hand.
-/

namespace Ethereum

/-- A hash function: a 32-byte digest of every byte string. -/
class HashFunction where
  /-- The digest of a byte string. -/
  digest : Bytes → Hash

export HashFunction (digest)

end Ethereum
