import Ethereum.Bloom
import Ethereum.Rlp.Scalar

/-!
# Logs and receipts

A receipt records what a transaction did: the state after it, the gas used up to it, and its logs
with their bloom. A bloom covers the address and the topics of each log, and not its data.
-/

namespace Ethereum

/-- An entry that a contract logged. -/
structure Log where
  /-- The contract that made the entry. -/
  address : Address := .zero 20
  /-- The words that the entry can be found by. -/
  topics : List Hash := []
  /-- The rest of the entry. -/
  data : Bytes := []
  deriving DecidableEq, Inhabited

namespace Log

open Rlp.Codec in
/-- The three fields in the order of the encoding. -/
def fields : Rlp.Codec Log :=
  ((fixed 20).seq <| (list (fixed 32)).seq bytes).imap
  (fun (address, topics, data) => ⟨address, topics, data⟩)
  (fun log => (log.address, log.topics, log.data))

/-- A log is encoded as the list of its fields. -/
def codec : Rlp.Codec Log := Rlp.Codec.record fields

/-- What the bloom of a log covers. -/
def bloomInputs (log : Log) : List Bytes := log.address.toBytes :: log.topics.map (·.toBytes)

end Log

/-- The bloom of a list of logs. -/
def logsBloom [HashFunction] (logs : List Log) : Bloom :=
  .ofInputs (logs.flatMap Log.bloomInputs)

/-- What one transaction of a block did. -/
structure Receipt where
  /-- The state root after the transaction. -/
  postState : Hash := .zero 32
  /-- Gas used by this transaction and all before it in the block. -/
  cumulativeGasUsed : UInt256 := 0
  /-- The bloom of the logs. -/
  bloom : Bloom := .empty
  /-- The logs in the order they were made. -/
  logs : List Log := []
  deriving DecidableEq, Inhabited

namespace Receipt

/-- A receipt whose bloom is that of its logs. -/
def ofLogs [HashFunction] (postState : Hash) (cumulativeGasUsed : UInt256) (logs : List Log) :
    Receipt :=
  ⟨postState, cumulativeGasUsed, logsBloom logs, logs⟩

open Rlp.Codec in
/-- The four fields in the order of the encoding. -/
def fields : Rlp.Codec Receipt :=
  ((fixed 32).seq <| uint256.seq <| (fixed 256).seq (list Log.codec)).imap
  (fun (postState, cumulativeGasUsed, bloom, logs) => ⟨postState, cumulativeGasUsed, bloom, logs⟩)
  (fun receipt => (receipt.postState, receipt.cumulativeGasUsed, receipt.bloom, receipt.logs))

/-- A receipt is encoded as the list of its fields. -/
def codec : Rlp.Codec Receipt := Rlp.Codec.record fields

end Receipt

/-- The union of the blooms that the receipts of a block carry. -/
def createBloom (receipts : List Receipt) : Bloom :=
  receipts.foldl (fun bloom receipt => bloom.union receipt.bloom) .empty

end Ethereum
