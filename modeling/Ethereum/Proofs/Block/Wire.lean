import Ethereum.Block.Wire
import Ethereum.Keccak
import Ethereum.Proofs.Rlp.Exact
import Ethereum.Proofs.Rlp.Record

/-!
# The two forms of a block

A block is read exactly from its own storage form, and the network form is the storage form of the
block without its total difficulty. `stored` and `sent` are what a block keeps of itself in the two
forms: the parts that belong to its node are gone.

## Main statements

* `decode_eq_ok_iff` — what is read is a storage form, and only of a block that lost its local parts.
* `decode_forms` — both forms read back, and what is read looks the same to every check.
* `storageBytes_of_decode` — no block has a second spelling.
-/

namespace Ethereum.Block

open Rlp

/-! ## What the forms keep -/

/-- What the storage form keeps of a block. -/
def stored (block : Block) : Block :=
  { block with
    receipts := [], reward := 0, hashIdentity := .computed, parentIdentity := .computed }

/-- What the network form keeps of a block. -/
def sent (block : Block) : Block := { block.stored with totalDifficulty := none }

theorem bodyFields_lawful : bodyFields.Lawful :=
  Header.codec_lawful.seq (Transaction.codec_lawful.list.seq Header.codec_lawful.list)

/-- The encoding of a total difficulty, where it is known. -/
def difficultyBytes (difficulty : Option UInt256) : Bytes :=
  (difficulty.map Codec.uint256.encode).getD []

/-- What the storage form has inside of its outer list. -/
def storageBody (block : Block) : Bytes :=
  bodyFields.encode block.bodyParts ++ difficultyBytes block.totalDifficulty

/-- The payload of the storage form has the announced length. -/
theorem length_storageBody (block : Block) : block.storageBody.length = block.storagePayload := by
  rw [storageBody, List.length_append, bodyFields_lawful.length_encode, storagePayload,
    networkPayload, difficultyBytes]
  cases block.totalDifficulty with
  | none => rfl
  | some difficulty => simp [Codec.uint256_lawful.length_encode]

/-- The storage form is a single list item. -/
theorem storageBytes_eq (block : Block) :
    block.storageBytes = encodeItem .list block.storageBody := by
  rw [encodeItem_list, encodeList, length_storageBody]
  rfl

/-- The network form is the storage form of a block whose total difficulty is not known. -/
theorem networkBytes_eq (block : Block) : block.networkBytes = block.sent.storageBytes := by
  rw [networkBytes, storageBytes]
  show _ = (Head.mk .list block.networkPayload).encode ++
    (bodyFields.encode block.bodyParts ++ [])
  rw [List.append_nil]

theorem storagePayload_sent (block : Block) : block.sent.storagePayload = block.networkPayload :=
  rfl

/-- The network form is that of the header and of the transmitted lists. -/
theorem networkBytes_congr {a b : Block} (hheader : a.header = b.header)
    (htransactions : a.transactions = b.transactions) (huncles : a.uncles = b.uncles) :
    a.networkBytes = b.networkBytes := by
  have hsent : a.sent = b.sent := by
    rw [sent, sent, stored, stored, hheader, htransactions, huncles]
  rw [networkBytes_eq, networkBytes_eq, hsent]

/-- The payload is part of the form. -/
theorem storagePayload_le (block : Block) : block.storagePayload ≤ block.storageBytes.length := by
  rw [storageBytes_eq, ← length_storageBody]
  exact length_le_length_encodeItem _ _

theorem networkPayload_le (block : Block) : block.networkPayload ≤ block.networkBytes.length := by
  rw [networkBytes_eq, ← storagePayload_sent]
  exact storagePayload_le _

/-- The forms are as long as it is announced. -/
theorem length_storageBytes (block : Block) :
    block.storageBytes.length = Head.size block.storagePayload + block.storagePayload := by
  rw [storageBytes_eq, encodeItem_list, length_encodeList, length_storageBody]

theorem length_networkBytes (block : Block) : block.networkBytes.length = block.size := by
  rw [networkBytes_eq, length_storageBytes, storagePayload_sent, size]

/-! ## Reading the parts -/

/-- A part that is read stands at the front of the payload. -/
theorem eq_encode_of_takePart {α : Type} {c : Codec α} (hc : c.Lawful) {part : BlockPart}
    {payload rest : Bytes} {a : α} (h : takePart part c payload = .ok (a, rest)) :
    payload = c.encode a ++ rest := by
  rw [takePart] at h
  split at h
  · simp at h
  · exact hc.eq_encode_of_decode (liftRlp_eq_ok_iff.mp h)

/-- A part at the front of the payload is read. -/
theorem takePart_encode {α : Type} {c : Codec α} (hc : c.Lawful) (part : BlockPart) (a : α)
    (rest : Bytes) (hlen : c.length a < 2 ^ 64) :
    takePart part c (c.encode a ++ rest) = .ok (a, rest) := by
  rw [takePart, if_neg (by simp [hc.encode_ne_nil a])]
  exact liftRlp_eq_ok_iff.mpr (hc.decode_encode a rest hlen)

theorem eq_difficultyBytes_of_takeTotalDifficulty {payload rest : Bytes}
    {difficulty : Option UInt256} (h : takeTotalDifficulty payload = .ok (difficulty, rest)) :
    payload = difficultyBytes difficulty ++ rest := by
  rw [takeTotalDifficulty] at h
  split at h
  · next hempty =>
    obtain ⟨rfl, rfl⟩ := Prod.mk.inj (Except.ok.inj h)
    exact List.isEmpty_iff.mp hempty
  · obtain ⟨⟨value, rest'⟩, hdec, h⟩ := bind_eq_ok_iff.mp h
    obtain ⟨rfl, rfl⟩ := Prod.mk.inj (Except.ok.inj h)
    exact Codec.uint256_lawful.eq_encode_of_decode (liftRlp_eq_ok_iff.mp hdec)

theorem takeTotalDifficulty_difficultyBytes (difficulty : Option UInt256)
    (hlen : (difficultyBytes difficulty).length < 2 ^ 64) :
    takeTotalDifficulty (difficultyBytes difficulty) = .ok (difficulty, []) := by
  cases difficulty with
  | none => rfl
  | some value =>
    have hsize : Codec.uint256.length value < 2 ^ 64 := by
      rw [← Codec.uint256_lawful.length_encode]
      exact hlen
    have hdec := Codec.uint256_lawful.decode_encode value [] hsize
    rw [List.append_nil] at hdec
    show takeTotalDifficulty (Codec.uint256.encode value) = _
    rw [takeTotalDifficulty, if_neg (by simp [Codec.uint256_lawful.encode_ne_nil value])]
    exact bind_eq_ok_iff.mpr ⟨_, liftRlp_eq_ok_iff.mpr hdec, rfl⟩

/-! ## Reading a block -/

/-- The parts of the storage form, in order. -/
theorem storageBody_eq (block : Block) :
    block.storageBody = Header.codec.encode block.header ++
      ((Codec.list Transaction.codec).encode block.transactions ++
        ((Codec.list Header.codec).encode block.uncles ++
          difficultyBytes block.totalDifficulty)) := by
  rw [storageBody, bodyFields, bodyParts, Codec.encode_seq, Codec.encode_seq, List.append_assoc,
    List.append_assoc]

/-- A block is read off the front of a byte string exactly when its storage form stands there. -/
theorem decodeFront_eq_ok_iff {bs rest : Bytes} {block : Block} :
    decodeFront bs = .ok (block, rest) ↔
      bs = block.storageBytes ++ rest ∧ block.storagePayload < 2 ^ 64 ∧ block.stored = block := by
  rw [storageBytes_eq, ← length_storageBody]
  constructor
  · intro h
    obtain ⟨⟨payload, after⟩, hpayload, h⟩ := bind_eq_ok_iff.mp h
    obtain ⟨⟨header, rest₁⟩, hheader, h⟩ := bind_eq_ok_iff.mp h
    obtain ⟨⟨transactions, rest₂⟩, htransactions, h⟩ := bind_eq_ok_iff.mp h
    obtain ⟨⟨uncles, rest₃⟩, huncles, h⟩ := bind_eq_ok_iff.mp h
    obtain ⟨⟨difficulty, rest₄⟩, hdifficulty, h⟩ := bind_eq_ok_iff.mp h
    dsimp only at hheader htransactions huncles hdifficulty h
    split at h
    · next hend =>
      obtain ⟨rfl, rfl⟩ := Prod.mk.inj (Except.ok.inj h)
      obtain ⟨rfl, hsize⟩ := takePayload_eq_ok_iff.mp (liftRlp_eq_ok_iff.mp hpayload)
      -- every part took exactly its own encoding off what the part before it had left
      have hbody : payload = storageBody ⟨header, transactions, uncles, [], difficulty, 0,
          .computed, .computed⟩ := by
        rw [storageBody_eq, eq_encode_of_takePart Header.codec_lawful hheader,
          eq_encode_of_takePart Transaction.codec_lawful.list htransactions,
          eq_encode_of_takePart Header.codec_lawful.list huncles,
          eq_difficultyBytes_of_takeTotalDifficulty hdifficulty, List.isEmpty_iff.mp hend,
          List.append_nil]
      subst hbody
      exact ⟨rfl, hsize, rfl⟩
    · simp at h
  · rintro ⟨rfl, hsize, hblock⟩
    have hpayload := takePayload_encodeItem .list rest hsize
    rw [storageBody_eq] at hpayload hsize ⊢
    simp only [List.length_append, Header.codec_lawful.length_encode,
      Transaction.codec_lawful.list.length_encode,
      Header.codec_lawful.list.length_encode] at hsize
    refine bind_eq_ok_iff.mpr ⟨_, liftRlp_eq_ok_iff.mpr hpayload, ?_⟩
    refine bind_eq_ok_iff.mpr ⟨_, takePart_encode Header.codec_lawful .header _ _ (by omega), ?_⟩
    refine bind_eq_ok_iff.mpr
      ⟨_, takePart_encode Transaction.codec_lawful.list .transactions _ _ (by omega), ?_⟩
    refine bind_eq_ok_iff.mpr
      ⟨_, takePart_encode Header.codec_lawful.list .uncles _ _ (by omega), ?_⟩
    refine bind_eq_ok_iff.mpr ⟨_, takeTotalDifficulty_difficultyBytes _ (by omega), ?_⟩
    rw [← hblock]
    rfl

/-- A byte string is a block exactly when it is the storage form of that block, and the block has
no local parts. -/
theorem decode_eq_ok_iff {bs : Bytes} {block : Block} :
    decode bs = .ok block ↔
      bs = block.storageBytes ∧ block.storagePayload < 2 ^ 64 ∧ block.stored = block := by
  rw [decode, whole_eq_ok_iff, decodeFront_eq_ok_iff, List.append_nil]

/-- The storage form of a block reads back. -/
theorem decode_storageBytes (block : Block) (h : block.storagePayload < 2 ^ 64) :
    decode block.storageBytes = .ok block.stored :=
  decode_eq_ok_iff.mpr ⟨rfl, h, rfl⟩

/-- The network form of a block reads back. -/
theorem decode_networkBytes (block : Block) (h : block.networkPayload < 2 ^ 64) :
    decode block.networkBytes = .ok block.sent := by
  rw [networkBytes_eq]
  exact decode_storageBytes block.sent h

/-- The storage form of a block is read exactly when the length of its payload has 64 bits, and then
as what the form keeps. -/
theorem decode_storageBytes_eq_ok_iff {block next : Block} :
    decode block.storageBytes = .ok next ↔
      block.storagePayload < 2 ^ 64 ∧ next = block.stored := by
  constructor
  · intro h
    obtain ⟨hbytes, hsize, -⟩ := decode_eq_ok_iff.mp h
    rw [storageBytes_eq, storageBytes_eq, encodeItem_list, encodeItem_list] at hbytes
    have hlen := congrArg List.length (encodeList_inj hbytes)
    rw [length_storageBody, length_storageBody] at hlen
    rw [← hlen] at hsize
    rw [decode_storageBytes block hsize, Except.ok.injEq] at h
    exact ⟨hsize, h.symm⟩
  · rintro ⟨hsize, rfl⟩
    exact decode_storageBytes block hsize

/-- The network form of a block is read exactly when the length of its payload has 64 bits, and then
as what the form keeps. -/
theorem decode_networkBytes_eq_ok_iff {block next : Block} :
    decode block.networkBytes = .ok next ↔
      block.networkPayload < 2 ^ 64 ∧ next = block.sent := by
  rw [networkBytes_eq]
  exact decode_storageBytes_eq_ok_iff

/-! ## One spelling, and reading back -/

/-- A block with an item of every kind: small and large bytes and integers, an account and none, an
empty and a known total difficulty of zero. -/
def smallBlock : Block where
  header := { number := 1, extraData := [0x80] }
  transactions := [{}, { nonce := 0x80, recipient := some (.zero 20), input := [0x7f] }]
  uncles := [{ gasLimit := 256 }]
  totalDifficulty := some 0

/-- Reading accepts only canonical bytes: a block that was read is written as the same bytes again,
in storage form, and in network form too when it has no total difficulty. It has none of the parts
that belong to a node. So two byte strings are never read as one block. -/
theorem storageBytes_of_decode :
    (∀ (bs : Bytes) (block : Block), decode bs = .ok block →
      block.storageBytes = bs ∧ block.receipts = [] ∧ block.reward = 0 ∧
        block.hashIdentity = .computed ∧ block.parentIdentity = .computed ∧
        (block.totalDifficulty = none → block.networkBytes = bs)) ∧
    ∀ (bs bs' : Bytes) (block : Block),
      decode bs = .ok block → decode bs' = .ok block → bs = bs' := by
  constructor
  · intro bs block h
    obtain ⟨rfl, -, hblock⟩ := decode_eq_ok_iff.mp h
    refine ⟨rfl, ?_, ?_, ?_, ?_, ?_⟩
    · rw [← hblock]
      rfl
    · rw [← hblock]
      rfl
    · rw [← hblock]
      rfl
    · rw [← hblock]
      rfl
    · intro hdifficulty
      have hsent : block.sent = block := by
        rw [sent, hblock, ← hdifficulty]
      rw [networkBytes_eq, hsent]
  · intro bs bs' block h h'
    rw [(decode_eq_ok_iff.mp h).1, (decode_eq_ok_iff.mp h').1]

/-- The small block is read from its storage form, which is the only spelling that it has. -/
theorem storageBytes_of_decode_smallBlock :
    decode smallBlock.storageBytes = .ok smallBlock ∧
      decode smallBlock.sent.networkBytes = .ok smallBlock.sent ∧ smallBlock.receipts = [] ∧
      smallBlock.sent.networkBytes = smallBlock.sent.storageBytes ∧
      ∀ bs, decode bs = .ok smallBlock → bs = smallBlock.storageBytes := by
  have hstorage : decode smallBlock.storageBytes = .ok smallBlock := by decide +kernel
  have hnetwork : decode smallBlock.sent.networkBytes = .ok smallBlock.sent := by decide +kernel
  obtain ⟨-, hreceipts, -⟩ := storageBytes_of_decode.1 _ _ hstorage
  obtain ⟨hbytes, -⟩ := storageBytes_of_decode.1 _ _ hnetwork
  exact ⟨hstorage, hnetwork, hreceipts, hbytes.symm,
    fun bs h => storageBytes_of_decode.2 _ _ _ h hstorage⟩

section
variable [HashFunction]

/-- The check of the body looks at transmitted parts only. -/
theorem verifyBody_sent {block : Block} : block.sent.verifyBody = block.verifyBody := rfl

/-- Two blocks that no reader of their transmitted parts can tell apart. -/
structure LooksLike (a b : Block) : Prop where
  hash : a.header.hash = b.header.hash
  hashNoNonce : a.hashNoNonce = b.hashNoNonce
  size : a.size = b.size
  /-- The check of the body gives the same result, and the same fault if it fails. -/
  verifyBody : a.verifyBody = b.verifyBody

/-- Both forms of a block read back: the storage form as the block without its local parts, and the
network form as the same without its total difficulty. What is read looks like the block, and is
written as the same bytes again. -/
theorem decode_forms (block : Block) :
    (block.storageBytes.length < 2 ^ 64 →
      decode block.storageBytes = .ok block.stored ∧
        block.stored.totalDifficulty = block.totalDifficulty ∧ block.stored.LooksLike block ∧
        block.stored.storageBytes = block.storageBytes ∧
        block.stored.networkBytes = block.networkBytes) ∧
    (block.networkBytes.length < 2 ^ 64 →
      decode block.networkBytes = .ok block.sent ∧
        block.sent.totalDifficulty = none ∧ block.sent.LooksLike block ∧
        block.sent.storageBytes = block.networkBytes ∧
        block.sent.networkBytes = block.networkBytes) := by
  constructor
  · intro h
    have hdec := decode_storageBytes block (Nat.lt_of_le_of_lt block.storagePayload_le h)
    exact ⟨hdec, rfl, ⟨rfl, rfl, rfl, rfl⟩, rfl, rfl⟩
  · intro h
    have hdec := decode_networkBytes block (Nat.lt_of_le_of_lt block.networkPayload_le h)
    exact ⟨hdec, rfl, ⟨rfl, rfl, rfl, rfl⟩, block.networkBytes_eq.symm, rfl⟩

end

/-- What a test and a node left on the small block is lost on the way, and the rest comes back. -/
theorem decode_forms_smallBlock :
    let block : Block :=
      { smallBlock with reward := 2, receipts := [{}], parentIdentity := .overridden (.zero 32) }
    block.storageBytes.length < 2 ^ 64 ∧ block.networkBytes.length < 2 ^ 64 ∧
      decode block.storageBytes = .ok smallBlock ∧
      decode block.networkBytes = .ok { smallBlock with totalDifficulty := none } := by
  intro block
  have hstorage : block.storageBytes.length < 2 ^ 64 := by decide +kernel
  have hnetwork : block.networkBytes.length < 2 ^ 64 := by decide +kernel
  exact ⟨hstorage, hnetwork, ((decode_forms block).1 hstorage).1,
    ((decode_forms block).2 hnetwork).1⟩

end Ethereum.Block
