import Ethereum.Proofs.Block.Derived
import Ethereum.Proofs.Rlp.Delimited
import Ethereum.Proofs.Trie.Binding

/-!
# Transactions of a block by their identity

A transaction is looked up by the digest of its encoding. The encoding tells all transactions apart,
so among transactions whose encodings do not collide the lookup is a test of membership, however
often one of them stands in the block. What stands in the block is a function of the moves that made
it: two changes write the transactions, and reading back keeps them.

## Main statements

* `Transaction.encode_injective` — no two transactions are encoded alike, of whatever length.
* `Block.transactions_moves` — what a block holds after a run of moves.
* `Block.transaction?_finds_held` — the lookup finds exactly what a block holds.
-/

namespace Ethereum

open Rlp Rlp.Codec

namespace Transaction

/-- The signature, which comes behind the call data, is short. -/
theorem length_signature_lt (signature : UInt64 × UInt256 × UInt256) :
    ((uint64.seq (uint256.seq uint256)).encode signature).length < 2 ^ 65 := by
  obtain ⟨v, r, s⟩ := signature
  have hv := uint64_short.length_lt v
  have hr : uint256.length r ≤ 32 + 1 := natSize_le r.isLt (by decide)
  have hs : uint256.length s ≤ 32 + 1 := natSize_le s.isLt (by decide)
  rw [(uint64_lawful.seq (uint256_lawful.seq uint256_lawful)).length_encode, length_seq, length_seq]
  dsimp only
  omega

/-- The nine fields tell transactions apart. Only the call data has no bound on its length. -/
theorem fields_injective : Function.Injective fields.encode := by
  have hsignature := uint64_short.seq_injective (uint256_short.seq_injective
    uint256_short.encode_injective)
  have hinput := bytes_delimited.seq_injective hsignature length_signature_lt
  have hall := uint64_short.seq_injective <| uint256_short.seq_injective <|
    uint256_short.seq_injective <| recipient_short.seq_injective <|
    uint256_short.seq_injective hinput
  intro a b h
  have hfields := hall h
  cases a
  cases b
  simpa using hfields

/-- No two transactions are encoded alike. -/
theorem encode_injective : Function.Injective codec.encode := by
  intro a b h
  rw [codec, fields_lawful.encode_record, fields_lawful.encode_record, encodeItem_list,
    encodeItem_list] at h
  exact fields_injective (encodeList_inj h)

/-- Transactions whose encodings do not collide have different identities. -/
theorem eq_of_hash_eq [HashFunction] {txs : List Transaction} {a b : Transaction}
    (hfree : CollisionFree (txs.map codec.encode)) (ha : a ∈ txs) (hb : b ∈ txs)
    (h : a.hash = b.hash) : a = b := by
  have hencode : codec.encode a = codec.encode b :=
    hfree _ (List.mem_map_of_mem ha) _ (List.mem_map_of_mem hb) h
  exact encode_injective hencode

end Transaction

namespace Block

variable [HashFunction] {block next start : Block} {hash : Hash} {tx : Transaction}

/-! ## The search -/

/-- The lookup gives the transaction at the least index with the identity. -/
theorem transaction?_eq_some_iff :
    block.transaction? hash = some tx ↔
      ∃ i, block.transactionAt? i = some tx ∧ tx.hash = hash ∧
        ∀ j < i, ∀ other, block.transactionAt? j = some other → other.hash ≠ hash := by
  rw [transaction?, List.find?_eq_some_iff_getElem]
  simp only [transactionAt?, decide_eq_true_eq]
  constructor
  · rintro ⟨hhash, i, hi, hget, hfirst⟩
    refine ⟨i, List.getElem?_eq_some_iff.mpr ⟨hi, hget⟩, hhash, fun j hj other hother => ?_⟩
    obtain ⟨hjlt, rfl⟩ := List.getElem?_eq_some_iff.mp hother
    simpa using hfirst j hj
  · rintro ⟨i, hget, hhash, hfirst⟩
    obtain ⟨hi, hget⟩ := List.getElem?_eq_some_iff.mp hget
    refine ⟨hhash, i, hi, hget, fun j hj => ?_⟩
    simpa using hfirst j hj _ (List.getElem?_eq_getElem (by omega))

/-- The lookup gives nothing exactly when no index has the identity. -/
theorem transaction?_eq_none_iff :
    block.transaction? hash = none ↔
      ∀ i other, block.transactionAt? i = some other → other.hash ≠ hash := by
  rw [transaction?, List.find?_eq_none]
  simp only [transactionAt?, decide_eq_true_eq]
  constructor
  · intro h i other hother
    exact h other (List.mem_of_getElem? hother)
  · intro h other hmem
    obtain ⟨i, hi⟩ := List.mem_iff_getElem?.mp hmem
    exact h i other hi

/-- The lookup of the identity of a transaction says whether the block holds the transaction. -/
theorem transaction?_eq_ite_mem
    (hfree : CollisionFree ((tx :: block.transactions).map Transaction.codec.encode)) :
    block.transaction? tx.hash = if tx ∈ block.transactions then some tx else none := by
  -- whatever has the identity is the transaction itself
  have hself : ∀ other ∈ block.transactions, other.hash = tx.hash → other = tx :=
    fun other hother h =>
      Transaction.eq_of_hash_eq hfree (List.mem_cons_of_mem _ hother) List.mem_cons_self h
  cases hfound : block.transaction? tx.hash with
  | none =>
    have hmem : tx ∉ block.transactions := fun hmem =>
      List.find?_eq_none.mp hfound tx hmem (decide_eq_true rfl)
    rw [if_neg hmem]
  | some found =>
    have hhash := List.find?_some hfound
    rw [decide_eq_true_eq] at hhash
    have hmem : found ∈ block.transactions := List.mem_of_find?_eq_some hfound
    obtain rfl := hself found hmem hhash
    rw [if_pos hmem]

/-! ## What a block holds -/

/-- The transactions after a move, given those before it. -/
def transactionsAfter (held : List Transaction) : Move → List Transaction
  | .change (.setTransactions transactions) => transactions
  | .change (.addTransaction tx) => held ++ [tx]
  | _ => held

/-- A move makes of the transactions what is said of it. -/
theorem transactions_move {step : Move} (h : block.move step = .ok next) :
    next.transactions = transactionsAfter block.transactions step := by
  cases step with
  | change change =>
    obtain rfl := Except.ok.inj h
    -- deriving header fields leaves every list alone
    cases change <;> rfl
  | reloadNetwork =>
    obtain ⟨-, rfl⟩ := decode_networkBytes_eq_ok_iff.mp h
    rfl
  | reloadStorage =>
    obtain ⟨-, rfl⟩ := decode_storageBytes_eq_ok_iff.mp h
    rfl

/-- A run of moves makes of the transactions what its moves do, one after the other. -/
theorem transactions_moves {steps : List Move} (h : start.moves steps = .ok block) :
    block.transactions = steps.foldl transactionsAfter start.transactions := by
  induction steps generalizing start with
  | nil =>
    obtain rfl := Except.ok.inj h
    rfl
  | cons first rest ih =>
    obtain ⟨next, hnext, hrest⟩ := bind_eq_ok_iff.mp h
    rw [ih hrest, transactions_move hnext]
    rfl

/-- The lookup by identity finds exactly what a block holds. It gives the transaction at the least
index with the identity, and nothing if there is none. After every run of changes and of reading
back, the block holds what the changes made of its transactions, and the lookup of the identity of
any transaction, held or not, gives the transaction itself if the block holds it and nothing
otherwise, as far as the hash function tells the encodings apart. Reading back never fails on forms
with lengths of 64 bits. -/
theorem transaction?_finds_held (block : Block) :
    (∀ (hash : Hash) (tx : Transaction), block.transaction? hash = some tx ↔
      ∃ i, block.transactionAt? i = some tx ∧ tx.hash = hash ∧
        ∀ j < i, ∀ other, block.transactionAt? j = some other → other.hash ≠ hash) ∧
    (∀ hash : Hash, block.transaction? hash = none ↔
      ∀ i other, block.transactionAt? i = some other → other.hash ≠ hash) ∧
    ∀ (steps : List Move) (next : Block), block.moves steps = .ok next →
      let held := steps.foldl transactionsAfter block.transactions
      next.transactions = held ∧
        (∀ tx : Transaction, CollisionFree ((tx :: held).map Transaction.codec.encode) →
          next.transaction? tx.hash = if tx ∈ held then some tx else none) ∧
        (next.storageBytes.length < 2 ^ 64 → ∀ step, ∃ after, next.move step = .ok after) := by
  refine ⟨fun _ _ => transaction?_eq_some_iff, fun _ => transaction?_eq_none_iff,
    fun steps next hnext => ?_⟩
  have hheld := transactions_moves hnext
  refine ⟨hheld, fun tx hfree => ?_, fun hlen => exists_move ?_⟩
  · rw [← hheld] at hfree ⊢
    exact transaction?_eq_ite_mem hfree
  · exact Nat.lt_of_le_of_lt next.storagePayload_le hlen

end Block

/-- The small block holds a transaction that was added before its storage form was read back, and
not one that was never added, with the empty transaction added a second time in between. -/
theorem Block.transaction?_finds_held_smallBlock :
    let added : Transaction := { nonce := 1 }
    let missing : Transaction := { nonce := 2 }
    let steps := [.change (.addTransaction added), .change (.addTransaction {}), .reloadStorage]
    ∃ next, smallBlock.moves steps = .ok next ∧ next.transaction? added.hash = some added ∧
      next.transaction? missing.hash = none := by
  intro added missing steps
  have hmoves : smallBlock.moves steps =
      .ok (smallBlock.run [.addTransaction added, .addTransaction {}]).stored := by decide +kernel
  obtain ⟨-, -, hruns⟩ := transaction?_finds_held smallBlock
  obtain ⟨-, hfinds, -⟩ := hruns steps _ hmoves
  have hadded : CollisionFree
      ((added :: steps.foldl transactionsAfter smallBlock.transactions).map
        Transaction.codec.encode) := by
    unfold CollisionFree
    decide +kernel
  have hmissing : CollisionFree
      ((missing :: steps.foldl transactionsAfter smallBlock.transactions).map
        Transaction.codec.encode) := by
    unfold CollisionFree
    decide +kernel
  refine ⟨_, hmoves, ?_, ?_⟩
  · rw [hfinds added hadded, if_pos (by decide)]
  · rw [hfinds missing hmissing, if_neg (by decide)]

end Ethereum
