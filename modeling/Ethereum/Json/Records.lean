import Ethereum.Header
import Ethereum.Json.Field
import Ethereum.Json.Value
import Ethereum.Params
import Ethereum.Receipt
import Ethereum.Transaction

/-!
# Records in JSON

The fields of each record under their keys. All must be given, but for the recipient of a
transaction and the protocol parameters.
-/

namespace Ethereum.Json

/-- A transaction. Without a recipient it creates a contract. -/
def readTransaction : Reader Transaction :=
  readRecord
    [field "nonce" readUInt64 fun nonce tx => { tx with nonce },
      field "gasPrice" readUInt256 fun gasPrice tx => { tx with gasPrice },
      field "gasLimit" readUInt256 fun gasLimit tx => { tx with gasLimit },
      (field "to" readRecipient fun recipient tx => { tx with recipient }).optional,
      field "value" readUInt256 fun value tx => { tx with value },
      field "input" readBytes fun input tx => { tx with input },
      field "v" readUInt64 fun v tx => { tx with v },
      field "r" readUInt256 fun r tx => { tx with r },
      field "s" readUInt256 fun s tx => { tx with s }]
    {}

/-- A log. -/
def readLog : Reader Log :=
  readRecord
    [field "address" (readFixed 20) fun address log => { log with address },
      field "topics" (readList (readFixed 32)) fun topics log => { log with topics },
      field "data" readBytes fun data log => { log with data }]
    {}

/-- A receipt. Its bloom is taken as given. -/
def readReceipt : Reader Receipt :=
  readRecord
    [field "postState" (readFixed 32) fun postState receipt => { receipt with postState },
      field "cumulativeGasUsed" readUInt256 fun cumulativeGasUsed receipt =>
        { receipt with cumulativeGasUsed },
      field "bloom" (readFixed 256) fun bloom receipt => { receipt with bloom },
      field "logs" (readList readLog) fun logs receipt => { receipt with logs }]
    {}

/-- A header. -/
def readHeader : Reader Header :=
  readRecord
    [field "parentHash" (readFixed 32) fun parentHash header => { header with parentHash },
      field "unclesHash" (readFixed 32) fun unclesHash header => { header with unclesHash },
      field "coinbase" (readFixed 20) fun coinbase header => { header with coinbase },
      field "stateRoot" (readFixed 32) fun stateRoot header => { header with stateRoot },
      field "transactionsRoot" (readFixed 32) fun transactionsRoot header =>
        { header with transactionsRoot },
      field "receiptsRoot" (readFixed 32) fun receiptsRoot header => { header with receiptsRoot },
      field "logsBloom" (readFixed 256) fun logsBloom header => { header with logsBloom },
      field "difficulty" readUInt256 fun difficulty header => { header with difficulty },
      field "number" readUInt256 fun number header => { header with number },
      field "gasLimit" readUInt256 fun gasLimit header => { header with gasLimit },
      field "gasUsed" readUInt256 fun gasUsed header => { header with gasUsed },
      field "timestamp" readUInt64 fun timestamp header => { header with timestamp },
      field "extraData" readBytes fun extraData header => { header with extraData },
      field "mixDigest" (readFixed 32) fun mixDigest header => { header with mixDigest },
      field "nonce" (readFixed 8) fun nonce header => { header with nonce }]
    {}

/-- Protocol parameters. Those that are left out are those of the main network. -/
def readParams : Reader ProtocolParams :=
  readRecord
    [(field "maxExtraDataSize" readUInt64 fun maxExtraDataSize params =>
        { params with maxExtraDataSize }).optional,
      (field "genesisGasLimit" readUInt64 fun genesisGasLimit params =>
        { params with genesisGasLimit }).optional,
      (field "genesisDifficulty" readUInt64 fun genesisDifficulty params =>
        { params with genesisDifficulty }).optional,
      (field "minGasLimit" readUInt64 fun minGasLimit params =>
        { params with minGasLimit }).optional]
    {}

end Ethereum.Json

namespace Ethereum.ProtocolParams

/-- The parameters that a JSON text holds, if they can be used. -/
def ofJson (text : String) : Except BlockError ProtocolParams :=
  match Json.readDocument Json.readParams text with
  | none => .error (.invalidParams .unreadable)
  | some params => do
    params.validate
    .ok params

end Ethereum.ProtocolParams
