import Ethereum.Error
import Ethereum.Header
import Ethereum.Receipt
import Ethereum.Transaction
import Ethereum.Trie.Ordered

/-!
# Blocks

A block is a header and a body: transactions, uncles and, on the node that assembled it, receipts.
Four header fields are derived from the body:

* the transactions root and the receipts root, as ordered roots;
* the logs bloom, as the union of the blooms of the receipts;
* the uncles hash, as the digest of the list of uncles.

Every change of the body goes through `rebuild` for the part it changes, so that the derived fields
of a part that was written once stay those of the list that the block holds. A header taken over
from elsewhere keeps its derived fields until then.
-/

namespace Ethereum

/-- Where an identity comes from. -/
inductive Identity where
  /-- It is what the header gives. -/
  | computed
  /-- It is set by a test that needs a hash of its choice. -/
  | overridden (hash : Hash)
  deriving DecidableEq

/-- The identity, given what the header gives. -/
def Identity.resolve (computed : Hash) : Identity → Hash
  | .computed => computed
  | .overridden hash => hash

/-- A header, a body, and what its node keeps about them. -/
structure Block where
  header : Header
  transactions : List Transaction := []
  uncles : List Header := []
  receipts : List Receipt := []
  /-- The sum of the difficulties up to this block, where known. -/
  totalDifficulty : Option UInt256 := none
  /-- What the coinbase gets for the block. -/
  reward : UInt256 := 0
  hashIdentity : Identity := .computed
  parentIdentity : Identity := .computed
  deriving DecidableEq

/-- A part of the body that header fields are derived from. -/
inductive Content where
  | transactions
  | receipts
  | uncles
  deriving DecidableEq, Repr

namespace Block

/-- A block of which only the header is known. Its roots stay as they are until the part of the
body that they commit to is written. -/
def ofHeader (header : Header) : Block := { header }

section
variable [HashFunction]

/-- Derives the header fields of one part of the body anew. -/
def rebuild (block : Block) : Content → Block
  | .transactions =>
    { block with
      header.transactionsRoot := Trie.orderedRoot Transaction.codec block.transactions }
  | .receipts =>
    { block with
      header.receiptsRoot := Trie.orderedRoot Receipt.codec block.receipts
      header.logsBloom := createBloom block.receipts }
  | .uncles => { block with header.unclesHash := Ethereum.unclesHash block.uncles }

/-- A block on top of another one, with an empty body to which its header commits. -/
def fresh (parentHash : Hash) (coinbase : Address) (stateRoot : Hash) (difficulty : UInt256)
    (nonce : UInt64) (extraData : Bytes) (timestamp : UInt64) : Block :=
  let header : Header :=
    { parentHash, coinbase, stateRoot, difficulty, extraData, timestamp, nonce := .ofUInt64 nonce }
  (((ofHeader header).rebuild .transactions).rebuild .receipts).rebuild .uncles

/-! ## The body -/

/-- Replaces the transactions. -/
def setTransactions (block : Block) (transactions : List Transaction) : Block :=
  { block with transactions }.rebuild .transactions

/-- Appends a transaction. -/
def addTransaction (block : Block) (tx : Transaction) : Block :=
  { block with transactions := block.transactions ++ [tx] }.rebuild .transactions

/-- Replaces the receipts. -/
def setReceipts (block : Block) (receipts : List Receipt) : Block :=
  { block with receipts }.rebuild .receipts

/-- Appends a receipt. -/
def addReceipt (block : Block) (receipt : Receipt) : Block :=
  { block with receipts := block.receipts ++ [receipt] }.rebuild .receipts

/-- Replaces the uncles. -/
def setUncles (block : Block) (uncles : List Header) : Block :=
  { block with uncles }.rebuild .uncles

/-- The first transaction with the given identity. -/
def transaction? (block : Block) (hash : Hash) : Option Transaction :=
  block.transactions.find? fun tx => tx.hash = hash

/-- The transaction at an index. -/
def transactionAt? (block : Block) (index : Nat) : Option Transaction := block.transactions[index]?

/-- The uncle at an index. -/
def uncleAt? (block : Block) (index : Nat) : Option Header := block.uncles[index]?

/-- Checks that the header commits to the transactions and the uncles. Receipts are not checked,
because a block that was read has none. -/
def verifyBody (block : Block) : Except BlockError Unit :=
  let root := Trie.orderedRoot Transaction.codec block.transactions
  let hash := Ethereum.unclesHash block.uncles
  if root ≠ block.header.transactionsRoot then
    .error (.rootMismatch .transactionsRoot block.header.transactionsRoot root)
  else if hash ≠ block.header.unclesHash then
    .error (.rootMismatch .unclesHash block.header.unclesHash hash)
  else .ok ()

/-! ## Identities -/

/-- The identity of a block, unless a test set another one. -/
def hash (block : Block) : Hash := block.hashIdentity.resolve block.header.hash

/-- The target of the proof of work. -/
def hashNoNonce (block : Block) : Hash := block.header.hashNoNonce

end

/-- The identity of the block before, unless a test set another one. -/
def parentHash (block : Block) : Hash := block.parentIdentity.resolve block.header.parentHash

/-- The number of the block, or the largest integer of 64 bits if it is larger. -/
def numberUInt64 (block : Block) : UInt64 := UInt64.ofNatClamp block.header.number.toNat

end Block

end Ethereum
