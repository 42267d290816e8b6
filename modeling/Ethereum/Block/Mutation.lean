import Ethereum.Block.Basic

/-!
# Changes of blocks

Every change that the owner of a block can make to it, as data, so that a run of changes is a list.
The derived header fields are not among what can be set.
-/

namespace Ethereum

/-- A change of a block. -/
inductive Mutation where
  | setTransactions (transactions : List Transaction)
  | addTransaction (tx : Transaction)
  | setReceipts (receipts : List Receipt)
  | addReceipt (receipt : Receipt)
  | setUncles (uncles : List Header)
  | setNumber (number : UInt256)
  | setCoinbase (coinbase : Address)
  | setStateRoot (root : Hash)
  | setGasLimit (limit : UInt256)
  | setGasUsed (used : UInt256)
  | setTime (timestamp : UInt64)
  | setExtraData (data : Bytes)
  | setMixDigest (digest : Hash)
  | setNonce (nonce : UInt64)
  | setTotalDifficulty (difficulty : Option UInt256)
  | setReward (reward : UInt256)
  /-- Sets the identity of the block, for a test. -/
  | mockHash (hash : Hash)
  /-- Sets the identity of the block before, for a test. -/
  | mockParentHash (hash : Hash)

namespace Block

variable [HashFunction]

/-- The block after a change. -/
def apply (block : Block) : Mutation → Block
  | .setTransactions transactions => block.setTransactions transactions
  | .addTransaction tx => block.addTransaction tx
  | .setReceipts receipts => block.setReceipts receipts
  | .addReceipt receipt => block.addReceipt receipt
  | .setUncles uncles => block.setUncles uncles
  | .setNumber number => { block with header.number := number }
  | .setCoinbase coinbase => { block with header.coinbase := coinbase }
  | .setStateRoot root => { block with header.stateRoot := root }
  | .setGasLimit limit => { block with header.gasLimit := limit }
  | .setGasUsed used => { block with header.gasUsed := used }
  | .setTime timestamp => { block with header.timestamp := timestamp }
  | .setExtraData data => { block with header.extraData := data }
  | .setMixDigest mixDigest => { block with header.mixDigest := mixDigest }
  | .setNonce nonce => { block with header := block.header.setNonce nonce }
  | .setTotalDifficulty totalDifficulty => { block with totalDifficulty }
  | .setReward reward => { block with reward }
  | .mockHash hash => { block with hashIdentity := .overridden hash }
  | .mockParentHash hash => { block with parentIdentity := .overridden hash }

/-- The block after a run of changes. -/
def run (block : Block) (changes : List Mutation) : Block := changes.foldl apply block

end Block

end Ethereum
