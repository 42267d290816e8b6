import Ethereum.HashFunction
import Ethereum.Rlp.Scalar

/-!
# Transactions

A transaction is a record of nine fields, carried as given: nothing here signs or checks one. Its
identity is the digest of its encoding.
-/

namespace Ethereum

/-- A signed transaction. A field that is not given is zero or empty, and without a recipient the
transaction creates a contract. -/
structure Transaction where
  /-- How many transactions the sender made before. -/
  nonce : UInt64 := 0
  /-- Price of a unit of gas, in wei. -/
  gasPrice : UInt256 := 0
  /-- The most gas that the transaction may use. -/
  gasLimit : UInt256 := 0
  /-- The account that is called, or none to create a contract. -/
  recipient : Option Address := none
  /-- Value transferred, in wei. -/
  value : UInt256 := 0
  /-- Call data, or the code that initializes a contract. -/
  input : Bytes := []
  /-- Recovery id of the signature. -/
  v : UInt64 := 0
  /-- First component of the signature. -/
  r : UInt256 := 0
  /-- Second component of the signature. -/
  s : UInt256 := 0
  deriving DecidableEq, Inhabited

namespace Transaction

open Rlp.Codec in
/-- The nine fields in the order of the encoding. -/
def fields : Rlp.Codec Transaction :=
  (uint64.seq <| uint256.seq <| uint256.seq <| Rlp.Codec.recipient.seq <| uint256.seq <|
    bytes.seq <| uint64.seq <| uint256.seq uint256).imap
  (fun (nonce, gasPrice, gasLimit, recipient, value, input, v, r, s) =>
    ⟨nonce, gasPrice, gasLimit, recipient, value, input, v, r, s⟩)
  (fun tx => (tx.nonce, tx.gasPrice, tx.gasLimit, tx.recipient, tx.value, tx.input, tx.v, tx.r,
    tx.s))

/-- A transaction is encoded as the list of its fields. -/
def codec : Rlp.Codec Transaction := Rlp.Codec.record fields

/-- The identity of a transaction. -/
def hash [HashFunction] (tx : Transaction) : Hash := digest (codec.encode tx)

/-- Whether a transaction creates a contract. -/
def isContractCreation (tx : Transaction) : Bool := tx.recipient.isNone

/-- One choice made while a transaction is put together. -/
inductive Setting where
  | nonce (nonce : UInt64)
  | gasPrice (price : UInt256)
  | gasLimit (limit : UInt256)
  | recipient (address : Address)
  | value (wei : UInt256)
  | input (data : Bytes)
  | signature (v : UInt64) (r s : UInt256)

/-- A transaction with one more choice made. -/
def set (tx : Transaction) : Setting → Transaction
  | .nonce nonce => { tx with nonce }
  | .gasPrice gasPrice => { tx with gasPrice }
  | .gasLimit gasLimit => { tx with gasLimit }
  | .recipient address => { tx with recipient := some address }
  | .value value => { tx with value }
  | .input input => { tx with input }
  | .signature v r s => { tx with v, r, s }

/-- The transaction of a sequence of choices, of which the last on each field counts. -/
def build (settings : List Setting) : Transaction := settings.foldl set {}

end Transaction

end Ethereum
