import Ethereum.Proofs.Block.Derived
import Ethereum.Proofs.Trie.Binding

/-!
# The hash of a block binds its body

The hash of a header binds the header, and with it the hash of the uncles and the root of the
transactions. In a block whose body was verified these two are those of the lists that the block
holds, and bind the lists.

Nothing is asked of the hash function beyond the strings that are hashed for the two blocks: the two
headers, the two lists of uncles, and the nodes of the two tries of transactions.
-/

namespace Ethereum

open Rlp

namespace Block

section
variable [HashFunction]

/-- What is hashed for the identity of a block and for the check of its body. -/
def hashedStrings (block : Block) : List Bytes :=
  Header.codec.encode block.header :: (Codec.list Header.codec).encode block.uncles ::
    (Trie.ordered Transaction.codec block.transactions).hashedStrings

variable {strings : List Bytes} {a b : Block}

/-- The digest of an encoding binds the value. -/
theorem eq_of_digest_encode_eq {α : Type} {c : Codec α} (hc : c.Lawful) {x y : α}
    (hfree : CollisionFree strings) (hsize : ∀ s ∈ strings, s.length < 2 ^ 64)
    (hx : c.encode x ∈ strings) (hy : c.encode y ∈ strings)
    (h : digest (c.encode x) = digest (c.encode y)) : x = y := by
  have hlen := hsize _ hx
  rw [hc.length_encode] at hlen
  exact hc.encode_inj hlen (hfree _ hx _ hy h)

/-- Two verified blocks with the same hash have the same header and the same transmitted lists, and
so the same network form, whatever else they hold. The hash function may not collide on the strings
that are hashed for them. These are strings of a machine, whose lengths have 64 bits: the head of a
longer one would not announce its length. -/
theorem body_eq_of_hash_eq (a b : Block) (hfree : CollisionFree (a.hashedStrings ++ b.hashedStrings))
    (hsize : ∀ s ∈ a.hashedStrings ++ b.hashedStrings, s.length < 2 ^ 64)
    (ha : a.verifyBody = .ok ()) (hb : b.verifyBody = .ok ())
    (h : a.header.hash = b.header.hash) :
    a.header = b.header ∧ a.transactions = b.transactions ∧ a.uncles = b.uncles ∧
      a.networkBytes = b.networkBytes := by
  have hamem : a.hashedStrings ⊆ a.hashedStrings ++ b.hashedStrings := List.subset_append_left _ _
  have hbmem : b.hashedStrings ⊆ a.hashedStrings ++ b.hashedStrings := List.subset_append_right _ _
  obtain ⟨haheader, haunclesTrie⟩ := List.cons_subset.mp hamem
  obtain ⟨hbheader, hbunclesTrie⟩ := List.cons_subset.mp hbmem
  obtain ⟨hauncles, hatrie⟩ := List.cons_subset.mp haunclesTrie
  obtain ⟨hbuncles, hbtrie⟩ := List.cons_subset.mp hbunclesTrie
  obtain ⟨haroot, hahash⟩ := verifyBody_eq_ok_iff.mp ha
  obtain ⟨hbroot, hbhash⟩ := verifyBody_eq_ok_iff.mp hb
  have hheader := eq_of_digest_encode_eq Header.codec_lawful hfree hsize haheader hbheader h
  -- each list is bound by the field of the common header that commits to it
  have htransactions : a.transactions = b.transactions := by
    apply Trie.eq_of_orderedRoot_eq Transaction.codec_lawful hfree hsize hatrie hbtrie
    calc Trie.orderedRoot Transaction.codec a.transactions
        = a.header.transactionsRoot := haroot.symm
      _ = b.header.transactionsRoot := by rw [hheader]
      _ = Trie.orderedRoot Transaction.codec b.transactions := hbroot
  have huncles : a.uncles = b.uncles := by
    apply eq_of_digest_encode_eq Header.codec_lawful.list hfree hsize hauncles hbuncles
    calc Ethereum.unclesHash a.uncles
        = a.header.unclesHash := hahash.symm
      _ = b.header.unclesHash := by rw [hheader]
      _ = Ethereum.unclesHash b.uncles := hbhash
  exact ⟨hheader, htransactions, huncles, networkBytes_congr hheader htransactions huncles⟩

end

/-- The small block with a header that commits to its body. -/
def committedBlock : Block :=
  smallBlock.run [.setTransactions smallBlock.transactions, .setUncles smallBlock.uncles]

/-- The committed block has the same hash as what is read from its network form and then changed in
its local parts, so that the two have the same body. -/
theorem body_eq_of_hash_eq_committedBlock :
    let b := committedBlock.sent.run [.setReward 5, .mockHash (.zero 32)]
    CollisionFree (committedBlock.hashedStrings ++ b.hashedStrings) ∧
      committedBlock.verifyBody = .ok () ∧ b.verifyBody = .ok () ∧ committedBlock ≠ b ∧
      committedBlock.transactions = b.transactions ∧ committedBlock.uncles = b.uncles := by
  intro b
  have hlocal : ∀ block : Block,
      (block.sent.run [.setReward 5, .mockHash (.zero 32)]).hashedStrings = block.hashedStrings ∧
        (block.sent.run [.setReward 5, .mockHash (.zero 32)]).header = block.header :=
    fun _ => ⟨rfl, rfl⟩
  obtain ⟨hhashed, hheader⟩ : b.hashedStrings = committedBlock.hashedStrings ∧
    b.header = committedBlock.header := hlocal committedBlock
  have hcommits : committedBlock.Commits .transactions :=
    run_commits ⟨.setTransactions smallBlock.transactions, by simp, rfl⟩
  have hcommits' : committedBlock.Commits .uncles :=
    run_commits ⟨.setUncles smallBlock.uncles, by simp, rfl⟩
  have hverify := verifyBody_eq_ok_iff.mpr ⟨hcommits, hcommits'⟩
  have hverify' : b.verifyBody = .ok () := verifyBody_run (verifyBody_sent.trans hverify)
  have hnodup : (committedBlock.hashedStrings.map digest).Nodup := by decide +kernel
  have hlength : ∀ s ∈ committedBlock.hashedStrings, s.length < 2 ^ 64 := by decide +kernel
  -- the local parts are not hashed, so that both blocks come with the same strings
  have hstrings : committedBlock.hashedStrings ++ b.hashedStrings ⊆ committedBlock.hashedStrings := by
    rw [hhashed]
    exact List.append_subset.mpr ⟨List.Subset.refl _, List.Subset.refl _⟩
  have hfree : CollisionFree (committedBlock.hashedStrings ++ b.hashedStrings) :=
    fun x hx y hy => collisionFree_of_nodup hnodup x (hstrings hx) y (hstrings hy)
  have hhash : committedBlock.header.hash = b.header.hash := by rw [hheader]
  obtain ⟨-, htransactions, huncles, -⟩ := body_eq_of_hash_eq committedBlock b hfree
    (fun s hs => hlength s (hstrings hs)) hverify hverify' hhash
  have hne : committedBlock ≠ b := fun h => absurd (congrArg (·.reward) h) (by decide)
  exact ⟨hfree, hverify, hverify', hne, htransactions, huncles⟩

end Block

end Ethereum
