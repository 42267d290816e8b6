import Ethereum.Block.Basic
import Ethereum.Rlp.Exact

/-!
# Encodings of blocks

A block is sent over the network as the list of its header, its transactions and its uncles, and
stored as the same list with the total difficulty behind it, where that is known. Receipts, reward
and identities set by a test belong to the node and are in neither form.

One reader takes both forms. It reads the parts one after the other out of the payload of the outer
list, which must end after the third or the fourth.
-/

namespace Ethereum.Block

/-- The parts that both forms have. -/
def bodyFields : Rlp.Codec (Header × List Transaction × List Header) :=
  Header.codec.seq <| (Rlp.Codec.list Transaction.codec).seq (Rlp.Codec.list Header.codec)

/-- The header and the transmitted lists of a block. -/
def bodyParts (block : Block) : Header × List Transaction × List Header :=
  (block.header, block.transactions, block.uncles)

/-! ## Writing -/

/-- The announced length of the payload of the network form. -/
def networkPayload (block : Block) : Nat := bodyFields.length block.bodyParts

/-- The announced length of the payload of the storage form. -/
def storagePayload (block : Block) : Nat :=
  block.networkPayload + (block.totalDifficulty.map Rlp.Codec.uint256.length).getD 0

/-- The network form: header, transactions, uncles. -/
def networkBytes (block : Block) : Bytes :=
  (Rlp.Head.mk .list block.networkPayload).encode ++ bodyFields.encode block.bodyParts

/-- The storage form: the network form, and the total difficulty where it is known. -/
def storageBytes (block : Block) : Bytes :=
  (Rlp.Head.mk .list block.storagePayload).encode ++
    (bodyFields.encode block.bodyParts ++
      (block.totalDifficulty.map Rlp.Codec.uint256.encode).getD [])

/-- The announced length of the network form. -/
def size (block : Block) : Nat := Rlp.Head.size block.networkPayload + block.networkPayload

/-! ## Reading -/

/-- Reads one part of the outer list, which must not be at its end. -/
def takePart {α : Type} (part : BlockPart) (c : Rlp.Codec α) (payload : Bytes) :
    Except BlockError (α × Bytes) :=
  if payload.isEmpty then .error (.missingPart part) else liftRlp (c.decode payload)

/-- Reads a total difficulty, if anything is left. -/
def takeTotalDifficulty (payload : Bytes) : Except BlockError (Option UInt256 × Bytes) :=
  if payload.isEmpty then .ok (none, [])
  else do
    let (difficulty, rest) ← liftRlp (Rlp.Codec.uint256.decode payload)
    .ok (some difficulty, rest)

/-- Reads a block in either form off the front of a byte string. -/
def decodeFront (bs : Bytes) : Except BlockError (Block × Bytes) := do
  let (payload, after) ← liftRlp (Rlp.takePayload .list bs)
  let (header, rest) ← takePart .header Header.codec payload
  let (transactions, rest) ← takePart .transactions (Rlp.Codec.list Transaction.codec) rest
  let (uncles, rest) ← takePart .uncles (Rlp.Codec.list Header.codec) rest
  let (totalDifficulty, rest) ← takeTotalDifficulty rest
  if rest.isEmpty then .ok ({ header, transactions, uncles, totalDifficulty }, after)
  else
    .error (.malformedEncoding
      (.listLengthMismatch (payload.length - rest.length) payload.length))

/-- The block that all of a byte string is a form of. -/
def decode : Bytes → Except BlockError Block := Rlp.whole decodeFront

/-- Blocks among the values of other formats. They are written in network form and read in either.
A missing part is then an input that is too short. -/
def codec : Rlp.Codec Block where
  encode := networkBytes
  length := size
  decode bs :=
    match decodeFront bs with
    | .ok result => .ok result
    | .error (.malformedEncoding cause) => .error cause
    | .error (.missingPart _) => .error .inputTooShort
    | .error _ => .error (.custom "invalid block")

end Ethereum.Block
