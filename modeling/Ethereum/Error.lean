import Ethereum.Rlp.Error
import Ethereum.Text.Hex

/-!
# Faults of blocks

Writing and hashing never fail. What can fail is reading bytes that come from elsewhere, a check of
a body against its header, and a check against protocol parameters. Each fault is a cause with its
data; `BlockError.message` words it, and `BlockError.isDecodeError` tells faults of reading apart.
-/

namespace Ethereum

/-- A part that every encoded block has. -/
inductive BlockPart where
  | header
  | transactions
  | uncles
  deriving DecidableEq, Repr

/-- What a message calls the part. -/
def BlockPart.name : BlockPart → String
  | .header => "header"
  | .transactions => "transactions"
  | .uncles => "uncles"

/-- A header field that commits to the transmitted body. -/
inductive Commitment where
  | transactionsRoot
  | unclesHash
  deriving DecidableEq, Repr

/-- What a message calls the field. -/
def Commitment.name : Commitment → String
  | .transactionsRoot => "transactions_root"
  | .unclesHash => "uncles_hash"

/-- Why protocol parameters are refused. -/
inductive ParamsFault where
  /-- The text is not a JSON document of parameters. -/
  | unreadable
  /-- The genesis block would break the bound on gas limits. -/
  | gasLimitBelowMinimum (limit minimum : UInt64)
  deriving DecidableEq

/-- The fault in words. -/
def ParamsFault.message : ParamsFault → String
  | .unreadable => "<json>"
  | .gasLimitBelowMinimum limit minimum => s!"genesis gas limit {limit} below minimum {minimum}"

/-- What can be wrong with a block or its parameters. -/
inductive BlockError where
  /-- The bytes do not have the needed shape. -/
  | malformedEncoding (cause : Rlp.Error)
  /-- A list that ends before a part that every block has. -/
  | missingPart (part : BlockPart)
  /-- Bytes after a complete value. -/
  | trailingBytes (count : Nat)
  /-- A header field that is not what the body gives. -/
  | rootMismatch (field : Commitment) (header computed : Hash)
  /-- Extra data beyond the bound of the parameters. -/
  | extraDataTooLong (length max : Nat)
  /-- Parameters that cannot be used. -/
  | invalidParams (fault : ParamsFault)
  deriving DecidableEq

namespace BlockError

/-- The fault in words. -/
def message : BlockError → String
  | .malformedEncoding cause => s!"malformed encoding: {cause.message}"
  | .missingPart part => s!"missing field: {part.name}"
  | .trailingBytes count => s!"{count} trailing bytes after canonical encoding"
  | .rootMismatch field header computed =>
    s!"{field.name} mismatch: header={header.toHex}, computed={computed.toHex}"
  | .extraDataTooLong length max => s!"extra data too long: {length} bytes (max {max})"
  | .invalidParams fault => s!"invalid protocol parameters: {fault.message}"

/-- Whether the fault is one of reading bytes, and not of checking a value. -/
def isDecodeError : BlockError → Bool
  | .malformedEncoding _ | .missingPart _ | .trailingBytes _ => true
  | _ => false

end BlockError

/-- The result of a step that fails by a malformed encoding. -/
def liftRlp {α : Type} : Except Rlp.Error α → Except BlockError α
  | .ok value => .ok value
  | .error cause => .error (.malformedEncoding cause)

end Ethereum
