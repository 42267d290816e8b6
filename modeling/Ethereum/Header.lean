import Ethereum.HashFunction
import Ethereum.Rlp.Scalar

/-!
# Headers

A header is a record of fifteen fields in a fixed order: thirteen that describe the block, and a
seal of two that a proof of work fills in. The digest of all fifteen is the identity of the block;
the digest of the thirteen is the target that the proof of work is for.
-/

namespace Ethereum

/-- The fields of a header that the proof of work is for. -/
structure UnsealedHeader where
  /-- The identity of the block before. -/
  parentHash : Hash := .zero 32
  /-- The digest of the list of uncles. -/
  unclesHash : Hash := .zero 32
  /-- The account that the reward goes to. -/
  coinbase : Address := .zero 20
  /-- The root of the state after the block. -/
  stateRoot : Hash := .zero 32
  /-- The ordered root of the transactions. -/
  transactionsRoot : Hash := .zero 32
  /-- The ordered root of the receipts. -/
  receiptsRoot : Hash := .zero 32
  /-- The union of the blooms of the receipts. -/
  logsBloom : Bloom := .zero 256
  /-- How hard the proof of work is. -/
  difficulty : UInt256 := 0
  /-- How many blocks come before this one. -/
  number : UInt256 := 0
  /-- The most gas that the transactions may use. -/
  gasLimit : UInt256 := 0
  /-- The gas that the transactions used. -/
  gasUsed : UInt256 := 0
  /-- Seconds since the start of 1970. -/
  timestamp : UInt64 := 0
  /-- Bytes of any content. Protocol parameters bound their length; a header does not. -/
  extraData : Bytes := []
  deriving DecidableEq, Inhabited

/-- What a proof of work fills in. -/
structure Seal where
  /-- The digest that the proof of work went through. -/
  mixDigest : Hash := .zero 32
  /-- The number that the proof of work searched for. -/
  nonce : BlockNonce := .zero 8
  deriving DecidableEq, Inhabited

/-- The header of a block. -/
structure Header extends UnsealedHeader, Seal
  deriving DecidableEq, Inhabited

open Rlp.Codec in
/-- The thirteen fields in the order of the encoding. -/
def UnsealedHeader.fields : Rlp.Codec UnsealedHeader :=
  ((fixed 32).seq <| (fixed 32).seq <| (fixed 20).seq <| (fixed 32).seq <| (fixed 32).seq <|
    (fixed 32).seq <| (fixed 256).seq <| uint256.seq <| uint256.seq <| uint256.seq <|
    uint256.seq <| uint64.seq bytes).imap
  (fun (parentHash, unclesHash, coinbase, stateRoot, transactionsRoot, receiptsRoot, logsBloom,
      difficulty, number, gasLimit, gasUsed, timestamp, extraData) =>
    ⟨parentHash, unclesHash, coinbase, stateRoot, transactionsRoot, receiptsRoot, logsBloom,
      difficulty, number, gasLimit, gasUsed, timestamp, extraData⟩)
  (fun h => (h.parentHash, h.unclesHash, h.coinbase, h.stateRoot, h.transactionsRoot,
    h.receiptsRoot, h.logsBloom, h.difficulty, h.number, h.gasLimit, h.gasUsed, h.timestamp,
    h.extraData))

open Rlp.Codec in
/-- The two fields of a seal in the order of the encoding. -/
def Seal.fields : Rlp.Codec Seal :=
  ((fixed 32).seq (fixed 8)).imap (fun (mixDigest, nonce) => ⟨mixDigest, nonce⟩)
    (fun own => (own.mixDigest, own.nonce))

/-- Which fields of a header an encoding covers. -/
inductive FieldSet where
  /-- All fifteen. -/
  | sealed
  /-- The thirteen without the seal. -/
  | unsealed
  deriving DecidableEq, Repr

/-- How many fields a set has. -/
def FieldSet.size : FieldSet → Nat
  | .sealed => 15
  | .unsealed => 13

namespace Header

/-- All fields: those of the unsealed header, and then those of the seal. -/
def fields : Rlp.Codec Header :=
  (UnsealedHeader.fields.seq Seal.fields).imap (fun (unsealed, own) => ⟨unsealed, own⟩)
    (fun header => (header.toUnsealedHeader, header.toSeal))

/-- A header is encoded as the list of all its fields. -/
def codec : Rlp.Codec Header := Rlp.Codec.record fields

/-- The announced length of the selected fields. -/
def payloadLength (header : Header) : FieldSet → Nat
  | .sealed => fields.length header
  | .unsealed => UnsealedHeader.fields.length header.toUnsealedHeader

/-- The selected fields, one after the other. -/
def selectedBytes (header : Header) : FieldSet → Bytes
  | .sealed => fields.encode header
  | .unsealed => UnsealedHeader.fields.encode header.toUnsealedHeader

/-- The list of the selected fields. -/
def encodeFields (header : Header) (set : FieldSet) : Bytes :=
  (Rlp.Head.mk .list (header.payloadLength set)).encode ++ header.selectedBytes set

/-- A header with an integer as its nonce. -/
def setNonce (header : Header) (nonce : UInt64) : Header :=
  { header with nonce := .ofUInt64 nonce }

/-- The nonce as an integer. -/
def nonceUInt64 (header : Header) : UInt64 := header.nonce.toUInt64

section
variable [HashFunction]

/-- The digest of the selected fields. -/
def hashFields (header : Header) (fields : FieldSet) : Hash := digest (header.encodeFields fields)

/-- The identity of a block with this header. -/
def hash (header : Header) : Hash := header.hashFields .sealed

/-- The target of the proof of work for this header. -/
def hashNoNonce (header : Header) : Hash := header.hashFields .unsealed

end

end Header

/-- The digest of a list of uncles: of its encoding, and not of a trie. -/
def unclesHash [HashFunction] (uncles : List Header) : Hash :=
  digest ((Rlp.Codec.list Header.codec).encode uncles)

end Ethereum
