import Ethereum.Error
import Ethereum.Rlp.Codec

/-!
# Whole encodings

Reading a byte string that must be the encoding of one value, with nothing after it.
-/

namespace Ethereum.Rlp

/-- Reads all of a byte string as one value, by a reader of its front. -/
def whole {α : Type} (read : Bytes → Except BlockError (α × Bytes)) (bs : Bytes) :
    Except BlockError α := do
  let (value, rest) ← read bs
  if rest.isEmpty then .ok value else .error (.trailingBytes rest.length)

/-- The value that all of a byte string is the encoding of. -/
def Codec.decodeExact {α : Type} (c : Codec α) : Bytes → Except BlockError α :=
  whole fun bs => liftRlp (c.decode bs)

end Ethereum.Rlp
