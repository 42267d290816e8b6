import Ethereum.Keccak
import Ethereum.Proofs.Rlp.Delimited
import Ethereum.Proofs.Rlp.Record
import Ethereum.Proofs.Trie.Binding

/-!
# The two hash inputs of a header

The identity of a block is the digest of all fifteen fields of its header, and the target of the
proof of work that of the thirteen without the seal. Each input binds the fields that it covers.
No header has as its first input what is the second input of another one, and the second input is
not read as a header, whatever follows it: the fields of a header end where the thirteen end, so
that a reader finds the seal of the fifteen behind the announced payload, if at all.

## Main statements

* `UnsealedHeader.fields_delimited` — the end of the thirteen fields can be told from the seal.
* `Header.encodeFields_cover_and_separate` — what the two inputs bind, and that they never mix.
-/

namespace Ethereum

open Rlp Rlp.Codec

/-- The thirteen fields can be told from what follows them. Only the last one has no bound on its
length. -/
theorem UnsealedHeader.fields_delimited : UnsealedHeader.fields.Delimited :=
  ((fixed_short (by decide)).seq_delimited <| (fixed_short (by decide)).seq_delimited <|
    (fixed_short (by decide)).seq_delimited <| (fixed_short (by decide)).seq_delimited <|
    (fixed_short (by decide)).seq_delimited <| (fixed_short (by decide)).seq_delimited <|
    (fixed_short (by decide)).seq_delimited <| uint256_short.seq_delimited <|
    uint256_short.seq_delimited <| uint256_short.seq_delimited <|
    uint256_short.seq_delimited <| uint64_short.seq_delimited bytes_delimited).imap (fun _ => rfl)

theorem Seal.length_encode_fields (own : Seal) : (Seal.fields.encode own).length = 42 := by
  rw [Seal.fields_lawful.length_encode, Seal.fields, length_imap, length_seq,
    length_fixed (by decide), length_fixed (by decide)]
  decide

namespace Header

variable {a b header : Header}

theorem encodeFields_sealed (header : Header) :
    header.encodeFields .sealed =
      encodeList (UnsealedHeader.fields.encode header.toUnsealedHeader ++
        Seal.fields.encode header.toSeal) := by
  show (Codec.record fields).encode header = _
  rw [fields_lawful.encode_record, encodeItem_list]
  rfl

theorem encodeFields_unsealed (header : Header) :
    header.encodeFields .unsealed =
      encodeList (UnsealedHeader.fields.encode header.toUnsealedHeader) := by
  show (Codec.record UnsealedHeader.fields).encode header.toUnsealedHeader = _
  rw [UnsealedHeader.fields_lawful.encode_record, encodeItem_list]

/-- The input of the identity binds the header. -/
theorem eq_of_encodeFields_sealed_eq (h : a.encodeFields .sealed = b.encodeFields .sealed) :
    a = b := by
  have hlen : ∀ own : Seal, (Seal.fields.encode own).length < 2 ^ 65 := fun own => by
    rw [own.length_encode_fields]
    decide
  rw [encodeFields_sealed, encodeFields_sealed] at h
  obtain ⟨hunsealed, hseal⟩ :=
    UnsealedHeader.fields_delimited (hlen _) (hlen _) (encodeList_inj h)
  have hsize : Seal.fields.length a.toSeal < 2 ^ 64 := by
    rw [← Seal.fields_lawful.length_encode, Seal.length_encode_fields]
    decide
  have hown := Seal.fields_lawful.encode_inj hsize hseal
  cases a
  cases b
  dsimp only at hunsealed hown
  rw [hunsealed, hown]

/-- The input of the target binds the thirteen fields. -/
theorem toUnsealedHeader_eq_of_encodeFields_unsealed_eq
    (h : a.encodeFields .unsealed = b.encodeFields .unsealed) :
    a.toUnsealedHeader = b.toUnsealedHeader := by
  rw [encodeFields_unsealed, encodeFields_unsealed] at h
  have hnil : ([] : Bytes).length < 2 ^ 65 := by decide
  refine (UnsealedHeader.fields_delimited hnil hnil ?_).1
  rw [encodeList_inj h]

/-- The input of the target covers nothing else. -/
theorem encodeFields_unsealed_congr (h : a.toUnsealedHeader = b.toUnsealedHeader) :
    a.encodeFields .unsealed = b.encodeFields .unsealed := by
  rw [encodeFields_unsealed, encodeFields_unsealed, h]

/-- A seal behind the thirteen fields is not part of them. -/
theorem fields_append_seal_ne (unsealed other : UnsealedHeader) (own : Seal) :
    UnsealedHeader.fields.encode unsealed ++ Seal.fields.encode own ≠
      UnsealedHeader.fields.encode other := by
  intro h
  have hlen := own.length_encode_fields
  have hnil : ([] : Bytes).length < 2 ^ 65 := by decide
  rw [← List.append_nil (UnsealedHeader.fields.encode other)] at h
  obtain ⟨-, hempty⟩ := UnsealedHeader.fields_delimited (by omega) hnil h
  exact Seal.fields_lawful.encode_ne_nil own hempty

/-- The two inputs are never the same, for no two headers. -/
theorem encodeFields_sealed_ne_unsealed (a b : Header) :
    a.encodeFields .sealed ≠ b.encodeFields .unsealed := by
  intro h
  rw [encodeFields_sealed, encodeFields_unsealed] at h
  exact fields_append_seal_ne _ _ _ (encodeList_inj h)

/-- The input of the target is not read as a header, whatever follows it. -/
theorem decode_encodeFields_unsealed_append (hlen : (header.encodeFields .unsealed).length < 2 ^ 64)
    (rest : Bytes) (result : Header × Bytes) :
    codec.decode (header.encodeFields .unsealed ++ rest) ≠ .ok result := by
  intro h
  have hsize := length_le_length_encodeItem .list
    (UnsealedHeader.fields.encode header.toUnsealedHeader)
  rw [encodeFields_unsealed, ← encodeItem_list] at h hlen
  -- what is read would have its fields and its seal in the payload of the thirteen fields
  obtain ⟨hfields, -⟩ := fields_lawful.eq_encode_of_decode_record (by omega) h
  exact fields_append_seal_ne _ _ _ hfields.symm

/-! ## Writing the seal -/

/-- A write of one field of the seal. -/
inductive SealWrite where
  | nonce (nonce : UInt64)
  | mixDigest (digest : Hash)

/-- A header with one field of its seal written. -/
def writeSeal (header : Header) : SealWrite → Header
  | .nonce nonce => header.setNonce nonce
  | .mixDigest mixDigest => { header with mixDigest }

theorem toUnsealedHeader_writeSeal (header : Header) (write : SealWrite) :
    (header.writeSeal write).toUnsealedHeader = header.toUnsealedHeader := by
  cases write with
  | nonce nonce => rfl
  | mixDigest digest => rfl

/-- No number of writes of the seal changes one of the thirteen fields. -/
theorem toUnsealedHeader_foldl_writeSeal (header : Header) (writes : List SealWrite) :
    (writes.foldl writeSeal header).toUnsealedHeader = header.toUnsealedHeader := by
  induction writes generalizing header with
  | nil => rfl
  | cons write writes ih =>
    rw [List.foldl_cons, ih, toUnsealedHeader_writeSeal]

section
variable [HashFunction]

theorem hashNoNonce_congr (h : a.toUnsealedHeader = b.toUnsealedHeader) :
    a.hashNoNonce = b.hashNoNonce :=
  congrArg digest (encodeFields_unsealed_congr h)

/-- The two hash inputs of headers cover exactly their fields and never mix. The input of the
identity binds all fields; the input of the target binds the thirteen without the seal, so the
target does not move with the seal, and moves with everything else as far as the hash function tells
the two inputs apart. No input of one kind is one of the other kind, and the input of the target is
never read as a header, whatever follows it. There the input has a length of 64 bits, as every
string of a machine: the head of a longer one would not announce its length. -/
theorem encodeFields_cover_and_separate (a b : Header) :
    (a.encodeFields .sealed = b.encodeFields .sealed ↔ a = b) ∧
    (a.encodeFields .unsealed = b.encodeFields .unsealed ↔
      a.toUnsealedHeader = b.toUnsealedHeader) ∧
    (∀ writes : List SealWrite, (writes.foldl writeSeal a).hashNoNonce = a.hashNoNonce) ∧
    (CollisionFree [a.encodeFields .unsealed, b.encodeFields .unsealed] →
      (a.hashNoNonce = b.hashNoNonce ↔ a.toUnsealedHeader = b.toUnsealedHeader)) ∧
    a.encodeFields .sealed ≠ b.encodeFields .unsealed ∧
    (CollisionFree [a.encodeFields .sealed, b.encodeFields .unsealed] →
      a.hash ≠ b.hashNoNonce) ∧
    ((a.encodeFields .unsealed).length < 2 ^ 64 → ∀ (rest : Bytes) (result : Header × Bytes),
      codec.decode (a.encodeFields .unsealed ++ rest) ≠ .ok result) := by
  have hunsealed : a.encodeFields .unsealed = b.encodeFields .unsealed ↔
      a.toUnsealedHeader = b.toUnsealedHeader :=
    ⟨toUnsealedHeader_eq_of_encodeFields_unsealed_eq, encodeFields_unsealed_congr⟩
  have hseparate := encodeFields_sealed_ne_unsealed a b
  refine ⟨⟨eq_of_encodeFields_sealed_eq, fun h => h ▸ rfl⟩, hunsealed, fun writes => ?_,
    fun hfree => ⟨fun h => ?_, hashNoNonce_congr⟩, hseparate, fun hfree h => ?_, fun hlen => ?_⟩
  · exact hashNoNonce_congr (toUnsealedHeader_foldl_writeSeal a writes)
  · exact hunsealed.mp (hfree _ (by simp) _ (by simp) h)
  · exact hseparate (hfree _ (by simp) _ (by simp) h)
  · exact decode_encodeFields_unsealed_append hlen

end

/-- Two headers that differ in the last of the thirteen fields have different targets, neither of
which is the identity of the first, and the input of the first target with its own seal behind it is
not read as a header. -/
theorem encodeFields_cover_and_separate_extraData :
    let a : Header := { number := 1, extraData := [0x80] }
    let b : Header := { a with extraData := [0x80, 0x00] }
    a.hashNoNonce ≠ b.hashNoNonce ∧ a.hash ≠ b.hashNoNonce ∧
      ∀ result,
        codec.decode (a.encodeFields .unsealed ++ Seal.fields.encode a.toSeal) ≠ .ok result := by
  intro a b
  have htargets : ([a.encodeFields .unsealed, b.encodeFields .unsealed].map digest).Nodup := by
    decide +kernel
  have hidentity : ([a.encodeFields .sealed, b.encodeFields .unsealed].map digest).Nodup := by
    decide +kernel
  have hlen : (a.encodeFields .unsealed).length < 2 ^ 64 := by decide +kernel
  obtain ⟨-, -, -, htarget, -, hmixed, hread⟩ := encodeFields_cover_and_separate a b
  refine ⟨fun h => ?_, hmixed (collisionFree_of_nodup hidentity), hread hlen _⟩
  have hfields := (htarget (collisionFree_of_nodup htargets)).mp h
  exact absurd (congrArg (·.extraData) hfields) (by decide)

end Header

end Ethereum
