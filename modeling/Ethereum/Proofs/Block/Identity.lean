import Ethereum.Block.Order
import Ethereum.Proofs.Block.Derived

/-!
# Identities that are set stay where they are set

A test may set the identity of a block, and that of the block before it. Neither is looked at by any
change, so two runs that differ in such settings only end with blocks that differ in their
identities only; and neither is looked at by an encoding, a check or an order, so nothing tells the
two blocks apart but the identities themselves. Those are the last ones that were set, whatever else
happened, and a block that is read has none.

## Main statements

* `unmocked_apply`, `unmocked_run` — what a change and a run do to a block without its identities.
* `identity_run` — the last setting counts.
* `mock_identities_never_leak` — a run with settings and the same run without.
-/

namespace Ethereum

/-- The identity that a change sets for the block. -/
def Mutation.mockedHash? : Mutation → Option Hash
  | .mockHash hash => some hash
  | _ => none

/-- The identity that a change sets for the block before. -/
def Mutation.mockedParentHash? : Mutation → Option Hash
  | .mockParentHash hash => some hash
  | _ => none

/-- Whether a change sets an identity. -/
def Mutation.isMock (change : Mutation) : Bool :=
  change.mockedHash?.isSome || change.mockedParentHash?.isSome

/-- A run without the changes that set an identity. -/
def Mutation.withoutMocks (changes : List Mutation) : List Mutation :=
  changes.filter fun change => !change.isMock

namespace Block

/-- A block without the identities that were set. -/
def unmocked (block : Block) : Block :=
  { block with hashIdentity := .computed, parentIdentity := .computed }

variable [HashFunction] {block start read : Block} {changes : List Mutation}

/-! ## What is blind to identities -/

/-- Whether two blocks look the same to everything but the readers of identities. -/
structure SameButIdentities (a b : Block) : Prop where
  header : a.header = b.header
  transactions : a.transactions = b.transactions
  uncles : a.uncles = b.uncles
  receipts : a.receipts = b.receipts
  totalDifficulty : a.totalDifficulty = b.totalDifficulty
  reward : a.reward = b.reward
  hashNoNonce : a.hashNoNonce = b.hashNoNonce
  networkBytes : a.networkBytes = b.networkBytes
  storageBytes : a.storageBytes = b.storageBytes
  size : a.size = b.size
  /-- The check of the body gives the same result, and the same fault if it fails. -/
  verifyBody : a.verifyBody = b.verifyBody
  /-- Every block stands behind both, before both, or beside both. -/
  byNumber_left (other : Block) : a.byNumber other = b.byNumber other
  byNumber_right (other : Block) : other.byNumber a = other.byNumber b

/-- Encodings, checks and orders do not look at identities. -/
theorem sameButIdentities_unmocked (block : Block) : block.SameButIdentities block.unmocked where
  header := rfl
  transactions := rfl
  uncles := rfl
  receipts := rfl
  totalDifficulty := rfl
  reward := rfl
  hashNoNonce := rfl
  networkBytes := rfl
  storageBytes := rfl
  size := rfl
  verifyBody := rfl
  byNumber_left _ := rfl
  byNumber_right _ := rfl

/-! ## Runs -/

/-- A change does not look at identities, and does nothing else if it sets one. -/
theorem unmocked_apply (block : Block) (change : Mutation) :
    (block.apply change).unmocked =
      if change.isMock then block.unmocked else block.unmocked.apply change := by
  cases change <;> rfl

/-- Without its identities, the end of a run is that of the run that sets none. -/
theorem unmocked_run (start : Block) (changes : List Mutation) :
    (start.run changes).unmocked = start.unmocked.run (Mutation.withoutMocks changes) := by
  induction changes using List.reverseRecOn with
  | nil => rfl
  | append_singleton changes change ih =>
    rw [run_append_singleton, unmocked_apply, ih, Mutation.withoutMocks, Mutation.withoutMocks,
      List.filter_append]
    by_cases hmock : change.isMock = true
    · have hdropped : [change].filter (fun change => !change.isMock) = [] := by simp [hmock]
      rw [if_pos hmock, hdropped, List.append_nil]
    · have hkept : [change].filter (fun change => !change.isMock) = [change] := by simp [hmock]
      rw [if_neg hmock, hkept, run_append_singleton]

/-- Where each change keeps an identity or sets it, a run keeps it or ends with the last setting. -/
theorem identity_run {identity : Block → Identity} {setting : Mutation → Option Hash}
    (hstep : ∀ block change,
      identity (block.apply change) = ((setting change).map .overridden).getD (identity block))
    (start : Block) (changes : List Mutation) :
    identity (start.run changes) =
      ((changes.filterMap setting).getLast?.map .overridden).getD (identity start) := by
  induction changes using List.reverseRecOn with
  | nil => rfl
  | append_singleton changes change ih =>
    rw [run_append_singleton, hstep, ih, List.filterMap_append]
    cases hsetting : setting change with
    | none => simp [hsetting]
    | some hash => simp [hsetting]

/-- The identity of a block is the last one that a run set, or else what its header gives. -/
theorem hash_run (h : start.hashIdentity = .computed) (changes : List Mutation) :
    (start.run changes).hash =
      (changes.filterMap Mutation.mockedHash?).getLast?.getD (start.run changes).header.hash := by
  have hstep : ∀ (block : Block) (change : Mutation), (block.apply change).hashIdentity =
      (change.mockedHash?.map .overridden).getD block.hashIdentity := by
    intro block change
    cases change <;> rfl
  rw [hash, identity_run hstep, h]
  cases (changes.filterMap Mutation.mockedHash?).getLast? <;> rfl

/-- The identity of the block before is the last one that a run set, or else that of the header. -/
theorem parentHash_run (h : start.parentIdentity = .computed) (changes : List Mutation) :
    (start.run changes).parentHash =
      (changes.filterMap Mutation.mockedParentHash?).getLast?.getD
        (start.run changes).header.parentHash := by
  have hstep : ∀ (block : Block) (change : Mutation), (block.apply change).parentIdentity =
      (change.mockedParentHash?.map .overridden).getD block.parentIdentity := by
    intro block change
    cases change <;> rfl
  rw [parentHash, identity_run hstep, h]
  cases (changes.filterMap Mutation.mockedParentHash?).getLast? <;> rfl

/-! ## Where identities are not set -/

/-- A block without an identity of its own has that of its header. -/
theorem hash_of_computed (h : block.hashIdentity = .computed) : block.hash = block.header.hash := by
  rw [hash, h]
  rfl

omit [HashFunction] in
theorem parentHash_of_computed (h : block.parentIdentity = .computed) :
    block.parentHash = block.header.parentHash := by
  rw [parentHash, h]
  rfl

omit [HashFunction] in
/-- A block that is read has the identities that its header gives. -/
theorem identities_of_decode {bs : Bytes} (h : decode bs = .ok read) :
    read.hashIdentity = .computed ∧ read.parentIdentity = .computed := by
  obtain ⟨-, -, hstored⟩ := decode_eq_ok_iff.mp h
  rw [← hstored]
  exact ⟨rfl, rfl⟩

/-- No block starts with an identity that was set. -/
theorem identities_of_origin {origin : Origin} (h : origin.result = .ok start) :
    start.hashIdentity = .computed ∧ start.parentIdentity = .computed := by
  cases origin with
  | fresh =>
    obtain rfl := Except.ok.inj h
    exact ⟨rfl, rfl⟩
  | around header =>
    obtain rfl := Except.ok.inj h
    exact ⟨rfl, rfl⟩
  | bytes bs => exact identities_of_decode h

omit [HashFunction] in
theorem unmocked_eq_self (hhash : block.hashIdentity = .computed)
    (hparent : block.parentIdentity = .computed) : block.unmocked = block := by
  cases block
  dsimp only at hhash hparent
  rw [unmocked, hhash, hparent]

/-- Identities that are set never leak. From wherever a block came, a run and the same run without
the settings end with blocks that look the same to everything but the readers of identities. In the
run, the identity of the block is the last one that was set, and that of the block before likewise;
where none was set they are what the header at the end gives. Both forms are the same bytes for the
two blocks, so the same block is read from them, and it has the identities that its header gives. -/
theorem mock_identities_never_leak (origin : Origin) (start : Block)
    (hstart : origin.result = .ok start) (changes : List Mutation) :
    let block := start.run changes
    let erased := start.run (Mutation.withoutMocks changes)
    block.SameButIdentities erased ∧
    block.hash = (changes.filterMap Mutation.mockedHash?).getLast?.getD block.header.hash ∧
    block.parentHash =
      (changes.filterMap Mutation.mockedParentHash?).getLast?.getD block.header.parentHash ∧
    erased.hash = erased.header.hash ∧ erased.parentHash = erased.header.parentHash ∧
    decode block.networkBytes = decode erased.networkBytes ∧
    decode block.storageBytes = decode erased.storageBytes ∧
    (block.networkBytes.length < 2 ^ 64 → decode block.networkBytes = .ok erased.sent) ∧
    (block.storageBytes.length < 2 ^ 64 → decode block.storageBytes = .ok erased.stored) ∧
    ∀ bs read, decode bs = .ok read →
      read.hashIdentity = .computed ∧ read.parentIdentity = .computed ∧
        read.hash = read.header.hash ∧ read.parentHash = read.header.parentHash := by
  intro block erased
  obtain ⟨hhash, hparent⟩ := identities_of_origin hstart
  have herased : erased = block.unmocked := by
    rw [unmocked_run, unmocked_eq_self hhash hparent]
  have hsame : block.SameButIdentities erased := herased ▸ sameButIdentities_unmocked block
  refine ⟨hsame, hash_run hhash changes, parentHash_run hparent changes,
    herased ▸ hash_of_computed rfl, herased ▸ parentHash_of_computed rfl,
    congrArg decode hsame.networkBytes, congrArg decode hsame.storageBytes, fun hlen => ?_,
    fun hlen => ?_, fun bs read hread => ?_⟩
  · rw [herased]
    exact decode_networkBytes block (Nat.lt_of_le_of_lt block.networkPayload_le hlen)
  · rw [herased]
    exact decode_storageBytes block (Nat.lt_of_le_of_lt block.storagePayload_le hlen)
  · obtain ⟨hhash', hparent'⟩ := identities_of_decode hread
    exact ⟨hhash', hparent', hash_of_computed hhash', parentHash_of_computed hparent'⟩

end Block

/-- The small block is given two identities, the last of them zero, around a change of its header. It
has the last one, writes the bytes of the block without any, and is read as a block without any. -/
theorem Block.mock_identities_never_leak_smallBlock :
    let changes : List Mutation := [.mockHash (.ofNat 32 1), .setNumber 5, .mockHash (.zero 32)]
    let block := smallBlock.run changes
    decode smallBlock.storageBytes = .ok smallBlock ∧ block.hash = .zero 32 ∧
      block.parentHash = block.header.parentHash ∧
      block.storageBytes = (smallBlock.run [.setNumber 5]).storageBytes ∧
      block.storageBytes.length < 2 ^ 64 ∧
      decode block.storageBytes = .ok (smallBlock.run [.setNumber 5]).stored := by
  intro changes block
  have hdecode : decode smallBlock.storageBytes = .ok smallBlock := by decide +kernel
  have hlen : block.storageBytes.length < 2 ^ 64 := by decide +kernel
  obtain ⟨hsame, hhash, hparent, -, -, -, -, -, hstorage, -⟩ :=
    mock_identities_never_leak (.bytes smallBlock.storageBytes) smallBlock hdecode changes
  exact ⟨hdecode, hhash, hparent, hsame.storageBytes, hlen, hstorage hlen⟩

end Ethereum
