import Ethereum.Block.Mutation
import Ethereum.Proofs.Block.Wire

/-!
# Derived fields follow the body

Every change of a block writes at most one part of the body, and derives the header fields of that
part anew. So over any run of changes a part is in one of two states: it was written, and its fields
are those of the list that the block holds; or it was not, and both the list and the fields are
those that the run started from. `Commits` and `SamePart` are the two states, `apply_commits` and
`apply_samePart` what one change does to them, and `run_commits` and `run_samePart` what a run does.

A block that is written and read back keeps its header and its transmitted lists, so a body that
the header commits to stays one.
-/

namespace Ethereum

/-- The part of the body that a change writes, if it writes one. -/
def Mutation.content? : Mutation → Option Content
  | .setTransactions _ | .addTransaction _ => some .transactions
  | .setReceipts _ | .addReceipt _ => some .receipts
  | .setUncles _ => some .uncles
  | _ => none

namespace Block

/-- Whether two blocks have the same list and the same derived fields for a part. -/
def SamePart (a b : Block) : Content → Prop
  | .transactions =>
    a.header.transactionsRoot = b.header.transactionsRoot ∧ a.transactions = b.transactions
  | .receipts =>
    a.header.receiptsRoot = b.header.receiptsRoot ∧ a.header.logsBloom = b.header.logsBloom ∧
      a.receipts = b.receipts
  | .uncles => a.header.unclesHash = b.header.unclesHash ∧ a.uncles = b.uncles

theorem SamePart.refl (block : Block) (content : Content) : block.SamePart block content := by
  cases content
  · exact ⟨rfl, rfl⟩
  · exact ⟨rfl, rfl, rfl⟩
  · exact ⟨rfl, rfl⟩

theorem SamePart.trans {a b c : Block} {content : Content} (hab : a.SamePart b content)
    (hbc : b.SamePart c content) : a.SamePart c content := by
  cases content
  · exact ⟨hab.1.trans hbc.1, hab.2.trans hbc.2⟩
  · exact ⟨hab.1.trans hbc.1, hab.2.1.trans hbc.2.1, hab.2.2.trans hbc.2.2⟩
  · exact ⟨hab.1.trans hbc.1, hab.2.trans hbc.2⟩

variable [HashFunction] {block start next : Block} {change : Mutation} {changes : List Mutation}
  {content : Content}

/-- Whether the derived fields of a part are those of the list that the block holds. -/
def Commits (block : Block) : Content → Prop
  | .transactions =>
    block.header.transactionsRoot = Trie.orderedRoot Transaction.codec block.transactions
  | .receipts =>
    block.header.receiptsRoot = Trie.orderedRoot Receipt.codec block.receipts ∧
      block.header.logsBloom = createBloom block.receipts
  | .uncles => block.header.unclesHash = Ethereum.unclesHash block.uncles

/-- A block commits to a part as soon as one with the same part does. -/
theorem Commits.of_samePart (h : start.Commits content) (hsame : block.SamePart start content) :
    block.Commits content := by
  cases content with
  | transactions =>
    obtain ⟨hroot, hlist⟩ := hsame
    show _ = Trie.orderedRoot _ _
    rw [hroot, hlist]
    exact h
  | receipts =>
    obtain ⟨hroot, hbloom, hlist⟩ := hsame
    show _ = Trie.orderedRoot _ _ ∧ _ = createBloom _
    rw [hroot, hbloom, hlist]
    exact h
  | uncles =>
    obtain ⟨hhash, hlist⟩ := hsame
    show _ = Ethereum.unclesHash _
    rw [hhash, hlist]
    exact h

/-- The body is accepted exactly when the header commits to the transmitted parts. -/
theorem verifyBody_eq_ok_iff :
    block.verifyBody = .ok () ↔ block.Commits .transactions ∧ block.Commits .uncles := by
  simp only [verifyBody, Commits]
  split
  · next h => simp [Ne.symm h]
  · next h =>
    split
    · next h' => simp [Ne.symm h']
    · next h' => simpa using ⟨(not_not.mp h).symm, (not_not.mp h').symm⟩

/-! ## One change -/

/-- Deriving the fields of a part makes the header commit to it. -/
theorem rebuild_commits (block : Block) (content : Content) :
    (block.rebuild content).Commits content := by
  cases content
  · rfl
  · exact ⟨rfl, rfl⟩
  · rfl

/-- Deriving the fields of a part leaves the other parts alone. -/
theorem rebuild_samePart {other : Content} (h : other ≠ content) :
    (block.rebuild content).SamePart block other := by
  cases content <;> cases other <;> first | exact absurd rfl h | simp [rebuild, SamePart]

/-- What one change does: either it writes the list of one part and derives the fields of that part,
or it leaves every part alone. -/
theorem apply_cases (block : Block) (change : Mutation) :
    (∃ content written, change.content? = some content ∧
      block.apply change = rebuild written content ∧
      ∀ other, other ≠ content → written.SamePart block other) ∨
    change.content? = none ∧ ∀ content, (block.apply change).SamePart block content := by
  have htransactions : ∀ transactions, ∀ other, other ≠ Content.transactions →
      { block with transactions }.SamePart block other := by
    rintro transactions (_ | _ | _) hother
    exacts [absurd rfl hother, ⟨rfl, rfl, rfl⟩, ⟨rfl, rfl⟩]
  have hreceipts : ∀ receipts, ∀ other, other ≠ Content.receipts →
      { block with receipts }.SamePart block other := by
    rintro receipts (_ | _ | _) hother
    exacts [⟨rfl, rfl⟩, absurd rfl hother, ⟨rfl, rfl⟩]
  have huncles : ∀ uncles, ∀ other, other ≠ Content.uncles →
      { block with uncles }.SamePart block other := by
    rintro uncles (_ | _ | _) hother
    exacts [⟨rfl, rfl⟩, ⟨rfl, rfl, rfl⟩, absurd rfl hother]
  cases change with
  | setTransactions transactions => exact .inl ⟨_, _, rfl, rfl, htransactions transactions⟩
  | addTransaction tx => exact .inl ⟨_, _, rfl, rfl, htransactions (block.transactions ++ [tx])⟩
  | setReceipts receipts => exact .inl ⟨_, _, rfl, rfl, hreceipts receipts⟩
  | addReceipt receipt => exact .inl ⟨_, _, rfl, rfl, hreceipts (block.receipts ++ [receipt])⟩
  | setUncles uncles => exact .inl ⟨_, _, rfl, rfl, huncles uncles⟩
  | _ =>
    -- what is left sets a field that is neither a list nor derived from one
    exact .inr ⟨rfl, fun content => by cases content <;> simp [apply, Header.setNonce, SamePart]⟩

/-- A change that writes a part leaves a header that commits to it. -/
theorem apply_commits (h : change.content? = some content) :
    (block.apply change).Commits content := by
  rcases apply_cases block change with ⟨own, written, hown, hbuilt, -⟩ | ⟨hnone, -⟩
  · obtain rfl : own = content := Option.some.inj (hown.symm.trans h)
    rw [hbuilt]
    exact rebuild_commits written own
  · rw [hnone] at h
    contradiction

/-- A change leaves every part alone that it does not write. -/
theorem apply_samePart (h : change.content? ≠ some content) :
    (block.apply change).SamePart block content := by
  rcases apply_cases block change with ⟨own, written, hown, hbuilt, hsame⟩ | ⟨-, hsame⟩
  · have hne : content ≠ own := fun heq => h (heq ▸ hown)
    rw [hbuilt]
    exact (rebuild_samePart hne).trans (hsame content hne)
  · exact hsame content

/-- A change keeps a header that commits to a part. -/
theorem Commits.apply (h : block.Commits content) (change : Mutation) :
    (block.apply change).Commits content := by
  by_cases hwrites : change.content? = some content
  · exact apply_commits hwrites
  · exact h.of_samePart (apply_samePart hwrites)

/-! ## Runs of changes -/

theorem run_append (block : Block) (first second : List Mutation) :
    block.run (first ++ second) = (block.run first).run second :=
  List.foldl_append

theorem run_append_singleton (block : Block) (changes : List Mutation) (change : Mutation) :
    block.run (changes ++ [change]) = (block.run changes).apply change :=
  run_append block changes [change]

/-- A run that never writes a part leaves it as it was at the start. -/
theorem run_samePart (h : ∀ change ∈ changes, change.content? ≠ some content) :
    (start.run changes).SamePart start content := by
  -- from the last change back, as the block before it is the result of a run too
  induction changes using List.reverseRecOn with
  | nil => exact SamePart.refl start content
  | append_singleton changes change ih =>
    rw [run_append_singleton]
    have hlast := h change (by simp)
    have hinit := ih fun other hother => h other (by simp [hother])
    exact (apply_samePart hlast).trans hinit

/-- A run keeps a header that commits to a part. -/
theorem run_commits_of_commits (h : start.Commits content) :
    (start.run changes).Commits content := by
  induction changes using List.reverseRecOn with
  | nil => exact h
  | append_singleton changes change ih =>
    rw [run_append_singleton]
    exact ih.apply change

/-- A run that writes a part once ends with a header that commits to it. -/
theorem run_commits (h : ∃ change ∈ changes, change.content? = some content) :
    (start.run changes).Commits content := by
  obtain ⟨change, hmem, hwrites⟩ := h
  -- whatever comes after the change keeps what it established
  obtain ⟨before, after, rfl⟩ := List.append_of_mem hmem
  have hsplit : before ++ change :: after = (before ++ [change]) ++ after := by simp
  rw [hsplit, run_append, run_append_singleton]
  exact run_commits_of_commits (apply_commits hwrites)

/-- A run keeps an accepted body. -/
theorem verifyBody_run (h : start.verifyBody = .ok ()) : (start.run changes).verifyBody = .ok () := by
  obtain ⟨htransactions, huncles⟩ := verifyBody_eq_ok_iff.mp h
  exact verifyBody_eq_ok_iff.mpr
    ⟨run_commits_of_commits htransactions, run_commits_of_commits huncles⟩

/-! ## Where blocks come from -/

/-- Where a block comes from. -/
inductive Origin where
  /-- It is put together on top of another block. -/
  | fresh (parentHash : Hash) (coinbase : Address) (stateRoot : Hash) (difficulty : UInt256)
    (nonce : UInt64) (extraData : Bytes) (timestamp : UInt64)
  /-- It is wrapped around a header. -/
  | around (header : Header)
  /-- It is read. -/
  | bytes (bs : Bytes)

/-- The block of an origin, which bytes may fail to give. -/
def Origin.result : Origin → Except BlockError Block
  | .fresh parentHash coinbase stateRoot difficulty nonce extraData timestamp =>
    .ok (Block.fresh parentHash coinbase stateRoot difficulty nonce extraData timestamp)
  | .around header => .ok (ofHeader header)
  | .bytes bs => decode bs

/-- Whether the block is put together anew. -/
def Origin.isFresh : Origin → Bool
  | .fresh .. => true
  | _ => false

/-- A fresh block commits to its empty body. -/
theorem commits_of_isFresh {origin : Origin} (hfresh : origin.isFresh)
    (hstart : origin.result = .ok start) (content : Content) : start.Commits content := by
  cases origin with
  | fresh =>
    obtain rfl := Except.ok.inj hstart
    cases content
    · rfl
    · exact ⟨rfl, rfl⟩
    · rfl
  | around => simp [Origin.isFresh] at hfresh
  | bytes => simp [Origin.isFresh] at hfresh

/-! ## Runs that read back -/

/-- One thing that may happen to a block. -/
inductive Move where
  | change (change : Mutation)
  /-- The block is replaced by what is read from its network form. -/
  | reloadNetwork
  /-- The block is replaced by what is read from its storage form. -/
  | reloadStorage

/-- The block after one move, which reading back may fail to give. -/
def move (block : Block) : Move → Except BlockError Block
  | .change change => .ok (block.apply change)
  | .reloadNetwork => decode block.networkBytes
  | .reloadStorage => decode block.storageBytes

/-- The block after a run of moves. -/
def moves (block : Block) : List Move → Except BlockError Block
  | [] => .ok block
  | first :: rest => do
    let next ← block.move first
    next.moves rest

/-- No move breaks the commitment to the transmitted parts. -/
theorem verifyBody_move {step : Move} (h : block.verifyBody = .ok ())
    (hnext : block.move step = .ok next) : next.verifyBody = .ok () := by
  cases step with
  | change change =>
    obtain rfl := Except.ok.inj hnext
    show (block.run [change]).verifyBody = .ok ()
    exact verifyBody_run h
  | reloadNetwork =>
    obtain ⟨-, rfl⟩ := decode_networkBytes_eq_ok_iff.mp hnext
    exact h
  | reloadStorage =>
    obtain ⟨-, rfl⟩ := decode_storageBytes_eq_ok_iff.mp hnext
    exact h

theorem verifyBody_moves {steps : List Move} (h : start.verifyBody = .ok ())
    (hblock : start.moves steps = .ok block) : block.verifyBody = .ok () := by
  induction steps generalizing start with
  | nil =>
    obtain rfl := Except.ok.inj hblock
    exact h
  | cons first rest ih =>
    obtain ⟨next, hnext, hrest⟩ := bind_eq_ok_iff.mp hblock
    exact ih (verifyBody_move h hnext) hrest

/-- A block whose forms have lengths of 64 bits has every move. -/
theorem exists_move (h : block.storagePayload < 2 ^ 64) (step : Move) :
    ∃ next, block.move step = .ok next := by
  have hnetwork : block.networkPayload < 2 ^ 64 := by
    rw [storagePayload] at h
    omega
  cases step with
  | change change => exact ⟨_, rfl⟩
  | reloadNetwork => exact ⟨_, decode_networkBytes block hnetwork⟩
  | reloadStorage => exact ⟨_, decode_storageBytes block h⟩

/-- After every run of changes, from wherever the block came: a part commits to the list that the
block holds if the block was fresh or the run wrote the part, and otherwise the list and its derived
fields are those of the start. A fresh block has an accepted body after every run of changes and of
reading back, which never fails on forms with lengths of 64 bits. -/
theorem derived_fields_of_run (origin : Origin) (start : Block) (hstart : origin.result = .ok start) :
    (∀ (changes : List Mutation) (content : Content),
      let written := origin.isFresh ∨ ∃ change ∈ changes, change.content? = some content
      (written → (start.run changes).Commits content) ∧
        (¬ written → (start.run changes).SamePart start content)) ∧
    (origin.isFresh →
      (∀ changes : List Mutation, (start.run changes).verifyBody = .ok ()) ∧
      ∀ (steps : List Move) (block : Block), start.moves steps = .ok block →
        block.verifyBody = .ok () ∧
          (block.storageBytes.length < 2 ^ 64 → ∀ step, ∃ next, block.move step = .ok next)) := by
  refine ⟨fun changes content => ⟨?_, ?_⟩, fun hfresh => ?_⟩
  · rintro (hfresh | hwritten)
    · exact run_commits_of_commits (commits_of_isFresh hfresh hstart content)
    · exact run_commits hwritten
  · intro hwritten
    exact run_samePart fun change hmem hwrites => hwritten (.inr ⟨change, hmem, hwrites⟩)
  · have hcommits := commits_of_isFresh hfresh hstart
    have hverify := verifyBody_eq_ok_iff.mpr ⟨hcommits .transactions, hcommits .uncles⟩
    refine ⟨fun changes => verifyBody_run hverify, fun steps block hblock => ?_⟩
    refine ⟨verifyBody_moves hverify hblock, fun hlen => exists_move ?_⟩
    exact Nat.lt_of_le_of_lt block.storagePayload_le hlen

end Block

/-- A block that was read does not commit to its lists, and keeps them and their fields until a
change writes them: here the transactions are written, and the uncles are not. -/
theorem Block.derived_fields_of_run_smallBlock :
    let after := smallBlock.run [.setNumber 5, .addTransaction {}]
    decode smallBlock.storageBytes = .ok smallBlock ∧ after.Commits .transactions ∧
      after.SamePart smallBlock .uncles := by
  intro after
  have hdecode : decode smallBlock.storageBytes = .ok smallBlock := by decide +kernel
  obtain ⟨hparts, -⟩ :=
    derived_fields_of_run (.bytes smallBlock.storageBytes) smallBlock hdecode
  have htransactions := hparts [.setNumber 5, .addTransaction {}] .transactions
  have huncles := hparts [.setNumber 5, .addTransaction {}] .uncles
  refine ⟨hdecode, htransactions.1 (.inr ⟨.addTransaction {}, by simp, rfl⟩), huncles.2 ?_⟩
  rintro (hfresh | ⟨change, hmem, hwrites⟩)
  · exact absurd hfresh (by decide)
  · have hcases : change = .setNumber 5 ∨ change = .addTransaction {} := by simpa using hmem
    rcases hcases with rfl | rfl
    · exact absurd hwrites (by decide)
    · exact absurd hwrites (by decide)

end Ethereum
