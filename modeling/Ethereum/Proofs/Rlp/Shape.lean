import Ethereum.Proofs.Rlp.Exact
import Ethereum.Proofs.Rlp.Record
import Ethereum.Rlp.Shape

/-!
# Values and their encodings

Every type that has a format has a lawful one, except where blocks are part of it: a block is also
read from its storage form, and is written in network form only. For all other types the accepted
byte strings are the encodings, one for each value.
-/

namespace Ethereum.Rlp.Shape

/-- Whether no block is part of a value. -/
def isBlockFree : Shape → Bool
  | .block => false
  | .list item => item.isBlockFree
  | _ => true

/-- The format of every type without blocks is lawful. -/
theorem codec_lawful {shape : Shape} (h : shape.isBlockFree) : shape.codec.Lawful := by
  induction shape with
  | uint64 => exact Codec.uint64_lawful
  | uint256 => exact Codec.uint256_lawful
  | bytes => exact Codec.bytes_lawful
  | fixed n => exact Codec.fixed_lawful n
  | recipient => exact Codec.recipient_lawful
  | transaction => exact Transaction.codec_lawful
  | log => exact Log.codec_lawful
  | receipt => exact Receipt.codec_lawful
  | header => exact Header.codec_lawful
  | block => exact absurd h (by decide)
  | list item ih => exact (ih h).list

/-- Encodings and values stand in a bijection, for every type without blocks: a byte string is
accepted as a value exactly when it is the encoding of that value. -/
theorem decodeExact_eq_ok_iff_eq_encode (shape : Shape) (hshape : shape.isBlockFree) (bs : Bytes)
    (value : shape.Value) (hlen : (shape.codec.encode value).length < 2 ^ 64) :
    shape.codec.decodeExact bs = .ok value ↔ bs = shape.codec.encode value := by
  have hlawful := codec_lawful hshape
  constructor
  · intro h
    exact hlawful.eq_encode_of_decodeExact h
  · rintro rfl
    exact hlawful.decodeExact_encode hlen

/-- Lists of lists of receipts, with a topic in a log in a receipt, and an empty list. -/
theorem decodeExact_eq_ok_iff_eq_encode_receipts :
    let shape : Shape := .list (.list .receipt)
    let value : List (List Receipt) :=
      [[{ cumulativeGasUsed := 0x80, logs := [{ topics := [.zero 32], data := [0x7f] }] }], []]
    shape.isBlockFree ∧ (shape.codec.encode value).length < 2 ^ 64 ∧
      shape.codec.decodeExact (shape.codec.encode value) = .ok value ∧
      ∀ bs, shape.codec.decodeExact bs = .ok value → bs = shape.codec.encode value := by
  intro shape value
  have hlen : (shape.codec.encode value).length < 2 ^ 64 := by decide +kernel
  have hiff := fun bs => decodeExact_eq_ok_iff_eq_encode shape rfl bs value hlen
  exact ⟨rfl, hlen, (hiff _).mpr rfl, fun bs => (hiff bs).mp⟩

end Ethereum.Rlp.Shape
