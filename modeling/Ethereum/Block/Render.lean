import Ethereum.Block.Wire
import Ethereum.Text.Checksum

/-!
# Blocks for people

A header and a block as text of several lines, one field to a line.
-/

namespace Ethereum

/-- One field to a line, labels filled up to one width, without an end of line after the last. -/
def Header.render (header : Header) : String :=
  let lines : List (String × String) :=
    [("ParentHash:   ", header.parentHash.toHex),
      ("UncleHash:    ", header.unclesHash.toHex),
      ("Coinbase:     ", header.coinbase.toChecksumHex),
      ("Root:         ", header.stateRoot.toHex),
      ("TxSha:        ", header.transactionsRoot.toHex),
      ("ReceiptSha:   ", header.receiptsRoot.toHex),
      ("Bloom:        ", header.logsBloom.toHex),
      ("Difficulty:   ", toString header.difficulty.toNat),
      ("Number:       ", toString header.number.toNat),
      ("GasLimit:     ", toString header.gasLimit.toNat),
      ("GasUsed:      ", toString header.gasUsed.toNat),
      ("Time:         ", toString header.timestamp.toNat),
      ("Extra:        ", Hex.encode header.extraData),
      ("MixDigest:    ", header.mixDigest.toHex),
      ("Nonce:        ", header.nonce.toHex)]
  "\n".intercalate (lines.map fun (label, value) => "\t" ++ label ++ value)

/-- One identity to a line. -/
def renderHashes (hashes : List Hash) : String :=
  String.join (hashes.map fun hash => "\t" ++ hash.toHex ++ "\n")

/-- Identity, size and total difficulty; the target of the proof of work; the header; and the
identities of the transactions and of the uncles. An identity set by a test is not shown. -/
def Block.render (block : Block) : String :=
  let difficulty := (block.totalDifficulty.map fun td => toString td.toNat).getD "unknown"
  "BLOCK(" ++ block.header.hash.toHex ++ "): Size: " ++ toString block.size ++ " TD: " ++
    difficulty ++ " \x7b\n" ++
    "NoNonce: " ++ block.header.hashNoNonce.toHex ++ "\n" ++
    "Header:\n[\n" ++ block.header.render ++ "\n]\n" ++
    "Transactions:\n" ++ renderHashes (block.transactions.map (·.hash)) ++
    "Uncles:\n" ++ renderHashes (block.uncles.map (·.hash)) ++ "\x7d"

end Ethereum
