import Ethereum.Block.Wire

/-!
# The types with a format

Every type that has a format, as a code for it: integers, strings, records, and lists of these
nested to any depth. `Shape.Value` is the type of a code and `Shape.codec` its format.
-/

namespace Ethereum.Rlp

/-- A code for a type that has a format. -/
inductive Shape where
  | uint64
  | uint256
  | bytes
  | fixed (n : Nat)
  | recipient
  | transaction
  | log
  | receipt
  | header
  | block
  | list (item : Shape)
  deriving DecidableEq, Repr

namespace Shape

/-- The type of a code. -/
def Value : Shape → Type
  | .uint64 => UInt64
  | .uint256 => UInt256
  | .bytes => Bytes
  | .fixed n => FixedBytes n
  | .recipient => Option Address
  | .transaction => Transaction
  | .log => Log
  | .receipt => Receipt
  | .header => Header
  | .block => Block
  | .list item => List item.Value

/-- The format of a code. -/
def codec : (shape : Shape) → Codec shape.Value
  | .uint64 => Codec.uint64
  | .uint256 => Codec.uint256
  | .bytes => Codec.bytes
  | .fixed n => Codec.fixed n
  | .recipient => Codec.recipient
  | .transaction => Transaction.codec
  | .log => Log.codec
  | .receipt => Receipt.codec
  | .header => Header.codec
  | .block => Block.codec
  | .list item => Codec.list item.codec

end Shape

end Ethereum.Rlp
