import Ethereum.Proofs.Block.Element
import Ethereum.Proofs.Block.Interleaving
import Ethereum.Proofs.Rlp.Shape

/-!
# Announced lengths are the lengths that are written

A list is announced before anything of it is written, by a length that is added up from the lengths
of its parts and not counted. Both ways lead to the same number: for the values of every type, for
the two sets of fields of a header, and for both forms of a block. The receipts of a block show in
its header only, as strings of a fixed length, so no change of them shows in the length of a form.

## Main statements

* `Shape.length_encode` — the values of every type, blocks and lists of blocks among them.
* `announcesRest_encodeList` — the head of a list counts what stands behind it.
* `lengths_announce_encodings` — all announced lengths, and what leaves them alone.
-/

namespace Ethereum

namespace Rlp

open Codec

/-- Whether a byte string is the head of a list of `n` bytes with exactly `n` bytes behind it, and
is read as that, as far as heads can be read. -/
def AnnouncesRest (n : Nat) (bs : Bytes) : Prop :=
  ∃ rest, rest.length = n ∧ bs = (Head.mk .list n).encode ++ rest ∧
    (n < 2 ^ 64 → Head.decode bs = .ok (⟨.list, n⟩, rest))

/-- The head of a list counts what stands behind it. -/
theorem announcesRest_encodeList (payload : Bytes) :
    AnnouncesRest payload.length (encodeList payload) := by
  refine ⟨payload, rfl, rfl, fun hsize => ?_⟩
  have hdec := Head.decode_encodeItem .list [] hsize
  rw [List.append_nil, List.append_nil, encodeItem_list] at hdec
  exact hdec

/-- The fields of a record are announced. -/
theorem announcesRest_record {α : Type} {fields : Codec α} (hfields : fields.Lawful) (a : α) :
    AnnouncesRest (fields.length a) ((Codec.record fields).encode a) := by
  rw [hfields.encode_record, encodeItem_list, ← hfields.length_encode]
  exact announcesRest_encodeList _

/-- Values of every type have the length that is announced for them. -/
theorem Shape.length_encode (shape : Shape) (value : shape.Value) :
    (shape.codec.encode value).length = shape.codec.length value := by
  induction shape with
  | block => exact Block.length_networkBytes value
  | list item ih => exact length_encode_list ih value
  | _ => exact (codec_lawful rfl).length_encode value

/-- The items of a list are announced. -/
theorem Shape.announcesRest_list (shape : Shape) (items : List shape.Value) :
    AnnouncesRest (shape.codec.payloadLength items) ((Codec.list shape.codec).encode items) := by
  rw [encode_list_of_length_encode shape.length_encode, encodeItem_list,
    ← length_flatMap_of_length_encode shape.length_encode]
  exact announcesRest_encodeList _

end Rlp

open Rlp Rlp.Codec

namespace Header

theorem announcesRest_encodeFields (header : Header) (set : FieldSet) :
    AnnouncesRest (header.payloadLength set) (header.encodeFields set) := by
  cases set with
  | sealed => exact announcesRest_record fields_lawful header
  | unsealed => exact announcesRest_record UnsealedHeader.fields_lawful header.toUnsealedHeader

/-- What is derived from the receipts takes the same room in every header. -/
theorem length_codec_receipts (header : Header) (root : Hash) (bloom : Bloom) :
    codec.length { header with receiptsRoot := root, logsBloom := bloom } = codec.length header := by
  have hword : ∀ hash : Hash, (fixed 32).length hash = 33 := length_fixed (by decide)
  have hbloom : ∀ bloom : Bloom, (fixed 256).length bloom = 259 := length_fixed (by decide)
  simp only [codec, fields, UnsealedHeader.fields, length_record, length_imap, length_seq, hword,
    hbloom]

end Header

namespace Block

theorem announcesRest_storageBytes (block : Block) :
    AnnouncesRest block.storagePayload block.storageBytes := by
  rw [storageBytes_eq, encodeItem_list, ← length_storageBody]
  exact announcesRest_encodeList _

theorem announcesRest_networkBytes (block : Block) :
    AnnouncesRest block.networkPayload block.networkBytes := by
  rw [networkBytes_eq, ← storagePayload_sent]
  exact announcesRest_storageBytes block.sent

/-! ## Changes of the receipts -/

/-- Whether two blocks announce the same lengths for the parts of their forms. -/
def SameLengths (a b : Block) : Prop :=
  a.networkPayload = b.networkPayload ∧ a.storagePayload = b.storagePayload

/-- A header with other fields derived from receipts announces the same lengths. -/
theorem sameLengths_receipts (block : Block) (receipts : List Receipt) (root : Hash)
    (bloom : Bloom) :
    { block with
      receipts
      header.receiptsRoot := root
      header.logsBloom := bloom }.SameLengths block := by
  have hheader := Header.length_codec_receipts block.header root bloom
  constructor
  · simp only [networkPayload, bodyFields, bodyParts, length_seq, hheader]
  · simp only [storagePayload, networkPayload, bodyFields, bodyParts, length_seq, hheader]

variable [HashFunction] {changes : List Mutation}

/-- A change of the receipts writes them and what is derived from them. -/
theorem apply_sameLengths (block : Block) {change : Mutation}
    (h : change.target = .part .receipts) :
    (block.apply change).SameLengths block := by
  cases change with
  | setReceipts receipts => exact sameLengths_receipts block receipts _ _
  | addReceipt receipt => exact sameLengths_receipts block (block.receipts ++ [receipt]) _ _
  | _ => simp [Mutation.target] at h

theorem run_sameLengths (block : Block)
    (h : ∀ change ∈ changes, change.target = .part .receipts) :
    (block.run changes).SameLengths block := by
  induction changes using List.reverseRecOn with
  | nil => exact ⟨rfl, rfl⟩
  | append_singleton changes change ih =>
    rw [run_append_singleton]
    obtain ⟨hnetwork, hstorage⟩ := apply_sameLengths (block.run changes) (h change (by simp))
    obtain ⟨hnetwork', hstorage'⟩ := ih fun other hother => h other (by simp [hother])
    exact ⟨hnetwork.trans hnetwork', hstorage.trans hstorage'⟩

end Block

/-- Announced lengths are the lengths that are written. A value of every type, and a list of values
of every type, has the length that is announced for it; the head of a list, of either set of fields
of a header, and of either form of a block announces exactly the bytes that stand behind it, with or
without a total difficulty; and the size of a block is the length of its network form. So no changes
of the receipts of a block change its size or the length of a form. -/
theorem Rlp.lengths_announce_encodings [HashFunction] :
    (∀ (shape : Shape) (value : shape.Value),
      shape.codec.length value = (shape.codec.encode value).length) ∧
    (∀ (shape : Shape) (items : List shape.Value),
      (Codec.list shape.codec).length items = ((Codec.list shape.codec).encode items).length ∧
        AnnouncesRest (shape.codec.payloadLength items) ((Codec.list shape.codec).encode items)) ∧
    (∀ (header : Header) (set : FieldSet),
      AnnouncesRest (header.payloadLength set) (header.encodeFields set)) ∧
    ∀ block : Block,
      block.size = block.networkBytes.length ∧
      AnnouncesRest block.networkPayload block.networkBytes ∧
      AnnouncesRest block.storagePayload block.storageBytes ∧
      ∀ changes : List Mutation, (∀ change ∈ changes, change.target = .part .receipts) →
        (block.run changes).size = block.size ∧
          (block.run changes).networkBytes.length = block.networkBytes.length ∧
          (block.run changes).storageBytes.length = block.storageBytes.length := by
  refine ⟨fun shape value => (shape.length_encode value).symm,
    fun shape items => ⟨((Shape.list shape).length_encode items).symm, ?_⟩,
    Header.announcesRest_encodeFields, fun block => ⟨?_, ?_, ?_, fun changes hreceipts => ?_⟩⟩
  · exact shape.announcesRest_list items
  · exact block.length_networkBytes.symm
  · exact block.announcesRest_networkBytes
  · exact block.announcesRest_storageBytes
  · obtain ⟨hnetwork, hstorage⟩ := Block.run_sameLengths block hreceipts
    have hsize : (block.run changes).size = block.size := by
      rw [Block.size, Block.size, hnetwork]
    refine ⟨hsize, ?_, ?_⟩
    · rw [Block.length_networkBytes, Block.length_networkBytes, hsize]
    · rw [Block.length_storageBytes, Block.length_storageBytes, hstorage]

/-- New receipts move the roots of the small block and leave its lengths alone, with a total
difficulty in the storage form and without. -/
theorem Rlp.lengths_announce_encodings_smallBlock :
    let changes : List Mutation :=
      [.setReceipts [{}, { logs := [{ data := [0x80] }] }], .addReceipt { bloom := .zero 256 }]
    (∀ change ∈ changes, change.target = .part .receipts) ∧
      (Block.smallBlock.run changes).storageBytes.length = 1044 ∧
      (Block.smallBlock.run changes).networkBytes.length = 1043 ∧
      (Block.smallBlock.run changes).size = 1043 := by
  intro changes
  have hreceipts : ∀ change ∈ changes, change.target = .part .receipts := by
    simp [changes, Mutation.target]
  have hstorage : Block.smallBlock.storageBytes.length = 1044 := by decide +kernel
  have hnetwork : Block.smallBlock.networkBytes.length = 1043 := by decide +kernel
  obtain ⟨hcounted, -, -, hchanges⟩ := lengths_announce_encodings.2.2.2 Block.smallBlock
  obtain ⟨hsize, hnetwork', hstorage'⟩ := hchanges changes hreceipts
  exact ⟨hreceipts, hstorage'.trans hstorage, hnetwork'.trans hnetwork,
    hsize.trans (hcounted.trans hnetwork)⟩

end Ethereum
