import Ethereum.Block.Wire

/-!
# Summaries

What the tool prints about a block or a header: a JSON object, one member to a line.
-/

namespace Ethereum.Tool

/-- A value in a summary. -/
inductive SummaryValue where
  | text (value : String)
  | number (value : Nat)
  | bool (value : Bool)
  | null

/-- A value as JSON. Texts hold no character that needs an escape. -/
def SummaryValue.render : SummaryValue → String
  | .text value => "\"" ++ value ++ "\""
  | .number value => toString value
  | .bool true => "true"
  | .bool false => "false"
  | .null => "null"

/-- Members as a JSON object, one to a line. -/
def renderSummary (members : List (String × SummaryValue)) : String :=
  "\x7b\n" ++
    ",\n".intercalate (members.map fun (key, value) => "  \"" ++ key ++ "\": " ++ value.render) ++
    "\n\x7d\n"

variable [HashFunction]

/-- The two digests of a header. -/
def summarizeHeader (header : Header) : List (String × SummaryValue) :=
  [("hash", .text header.hash.toHex), ("hashNoNonce", .text header.hashNoNonce.toHex)]

/-- What there is to know about a block. -/
def summarizeBlock (block : Block) : List (String × SummaryValue) :=
  [("hash", .text block.hash.toHex),
    ("hashNoNonce", .text block.hashNoNonce.toHex),
    ("parentHash", .text block.parentHash.toHex),
    ("number", .text (UInt256.toHex block.header.number)),
    ("size", .number block.size),
    ("nonce", .number block.header.nonceUInt64.toNat),
    ("difficulty", .text (UInt256.toHex block.header.difficulty)),
    ("totalDifficulty", match block.totalDifficulty with
      | some difficulty => .text (UInt256.toHex difficulty)
      | none => .null),
    ("transactions", .number block.transactions.length),
    ("uncles", .number block.uncles.length),
    ("stateRoot", .text block.header.stateRoot.toHex),
    ("transactionsRoot", .text block.header.transactionsRoot.toHex),
    ("receiptsRoot", .text block.header.receiptsRoot.toHex),
    ("unclesHash", .text block.header.unclesHash.toHex),
    ("bodyConsistent", .bool (match block.verifyBody with | .ok _ => true | .error _ => false))]

end Ethereum.Tool
