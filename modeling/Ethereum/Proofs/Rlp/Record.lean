import Ethereum.Header
import Ethereum.Proofs.Rlp.Scalar
import Ethereum.Receipt
import Ethereum.Transaction

/-!
# Records have lawful formats

Each is a record of lawful fields, so its laws are put together from theirs in the order of the
encoding.
-/

namespace Ethereum

open Rlp.Codec

/-- The nine fields of a transaction. -/
theorem Transaction.fields_lawful : Transaction.fields.Lawful :=
  (uint64_lawful.seq <| uint256_lawful.seq <| uint256_lawful.seq <| recipient_lawful.seq <|
    uint256_lawful.seq <| bytes_lawful.seq <| uint64_lawful.seq <|
    uint256_lawful.seq uint256_lawful).imap (fun _ => rfl) (fun _ => rfl)

theorem Transaction.codec_lawful : Transaction.codec.Lawful := Transaction.fields_lawful.record

/-- The three fields of a log, of which the second is a list. -/
theorem Log.fields_lawful : Log.fields.Lawful :=
  ((fixed_lawful 20).seq <| (fixed_lawful 32).list.seq bytes_lawful).imap (fun _ => rfl)
    (fun _ => rfl)

theorem Log.codec_lawful : Log.codec.Lawful := Log.fields_lawful.record

/-- The four fields of a receipt, of which the last is a list of records. -/
theorem Receipt.fields_lawful : Receipt.fields.Lawful :=
  ((fixed_lawful 32).seq <| uint256_lawful.seq <| (fixed_lawful 256).seq
    Log.codec_lawful.list).imap (fun _ => rfl) (fun _ => rfl)

theorem Receipt.codec_lawful : Receipt.codec.Lawful := Receipt.fields_lawful.record

/-- The thirteen fields of a header that the proof of work is for. -/
theorem UnsealedHeader.fields_lawful : UnsealedHeader.fields.Lawful :=
  ((fixed_lawful 32).seq <| (fixed_lawful 32).seq <| (fixed_lawful 20).seq <|
    (fixed_lawful 32).seq <| (fixed_lawful 32).seq <| (fixed_lawful 32).seq <|
    (fixed_lawful 256).seq <| uint256_lawful.seq <| uint256_lawful.seq <| uint256_lawful.seq <|
    uint256_lawful.seq <| uint64_lawful.seq bytes_lawful).imap (fun _ => rfl) (fun _ => rfl)

/-- The two fields of a seal. -/
theorem Seal.fields_lawful : Seal.fields.Lawful :=
  ((fixed_lawful 32).seq (fixed_lawful 8)).imap (fun _ => rfl) (fun _ => rfl)

theorem Header.fields_lawful : Header.fields.Lawful :=
  (UnsealedHeader.fields_lawful.seq Seal.fields_lawful).imap (fun _ => rfl) (fun _ => rfl)

theorem Header.codec_lawful : Header.codec.Lawful := Header.fields_lawful.record

end Ethereum
