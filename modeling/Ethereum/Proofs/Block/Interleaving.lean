import Ethereum.Proofs.Block.Derived

/-!
# Changes of different targets do not see each other

A change writes one target: the list of a part of the body together with the header fields that are
derived from it, or a single field. What it leaves there depends on the change and on what was
there, and on nothing else. So a run leaves at each target what the changes of that target alone
would leave, and the order between changes of different targets does not matter.

## Main statements

* `apply_sameAt`, `SameAt.apply` — what one change leaves alone, and what it looks at.
* `run_sameAt_filter` — at each target a run ends as its changes of that target alone do.
* `run_eq_of_interleaving` — runs with the same changes of each target end with the same block.
-/

namespace Ethereum

attribute [ext] Header Block

/-- What a change writes. -/
inductive Target where
  /-- The list of a part of the body, and the header fields derived from it. -/
  | part (content : Content)
  | number
  | coinbase
  | stateRoot
  | gasLimit
  | gasUsed
  | time
  | extraData
  | mixDigest
  | nonce
  | totalDifficulty
  | reward
  | hashIdentity
  | parentIdentity
  deriving DecidableEq

/-- The target of a change. -/
def Mutation.target : Mutation → Target
  | .setTransactions _ | .addTransaction _ => .part .transactions
  | .setReceipts _ | .addReceipt _ => .part .receipts
  | .setUncles _ => .part .uncles
  | .setNumber _ => .number
  | .setCoinbase _ => .coinbase
  | .setStateRoot _ => .stateRoot
  | .setGasLimit _ => .gasLimit
  | .setGasUsed _ => .gasUsed
  | .setTime _ => .time
  | .setExtraData _ => .extraData
  | .setMixDigest _ => .mixDigest
  | .setNonce _ => .nonce
  | .setTotalDifficulty _ => .totalDifficulty
  | .setReward _ => .reward
  | .mockHash _ => .hashIdentity
  | .mockParentHash _ => .parentIdentity

theorem Mutation.content?_eq_some_iff {change : Mutation} {content : Content} :
    change.content? = some content ↔ change.target = .part content := by
  cases change <;> simp [Mutation.content?, Mutation.target]

namespace Block

/-! ## Blocks that agree at a target -/

theorem SamePart.symm {a b : Block} {content : Content} (h : a.SamePart b content) :
    b.SamePart a content := by
  cases content
  · exact ⟨h.1.symm, h.2.symm⟩
  · exact ⟨h.1.symm, h.2.1.symm, h.2.2.symm⟩
  · exact ⟨h.1.symm, h.2.symm⟩

/-- Whether two blocks agree in what changes of a target write. -/
def SameAt (a b : Block) : Target → Prop
  | .part content => a.SamePart b content
  | .number => a.header.number = b.header.number
  | .coinbase => a.header.coinbase = b.header.coinbase
  | .stateRoot => a.header.stateRoot = b.header.stateRoot
  | .gasLimit => a.header.gasLimit = b.header.gasLimit
  | .gasUsed => a.header.gasUsed = b.header.gasUsed
  | .time => a.header.timestamp = b.header.timestamp
  | .extraData => a.header.extraData = b.header.extraData
  | .mixDigest => a.header.mixDigest = b.header.mixDigest
  | .nonce => a.header.nonce = b.header.nonce
  | .totalDifficulty => a.totalDifficulty = b.totalDifficulty
  | .reward => a.reward = b.reward
  | .hashIdentity => a.hashIdentity = b.hashIdentity
  | .parentIdentity => a.parentIdentity = b.parentIdentity

theorem SameAt.refl (block : Block) (target : Target) : block.SameAt block target := by
  cases target with
  | part content => exact SamePart.refl block content
  | _ => rfl

theorem SameAt.symm {a b : Block} {target : Target} (h : a.SameAt b target) :
    b.SameAt a target := by
  cases target with
  | part content => exact SamePart.symm h
  | _ => exact Eq.symm h

theorem SameAt.trans {a b c : Block} {target : Target} (hab : a.SameAt b target)
    (hbc : b.SameAt c target) : a.SameAt c target := by
  cases target with
  | part content => exact SamePart.trans hab hbc
  | _ => exact Eq.trans hab hbc

/-- Whether two blocks agree in the header fields that no change writes. -/
def SameOrigin (a b : Block) : Prop :=
  a.header.parentHash = b.header.parentHash ∧ a.header.difficulty = b.header.difficulty

/-- There is nothing else in a block. -/
theorem eq_of_sameAt {a b : Block} (horigin : a.SameOrigin b)
    (h : ∀ target, a.SameAt b target) : a = b := by
  obtain ⟨hparent, hdifficulty⟩ := horigin
  obtain ⟨htransactionsRoot, htransactions⟩ := h (.part .transactions)
  obtain ⟨hreceiptsRoot, hbloom, hreceipts⟩ := h (.part .receipts)
  obtain ⟨hunclesHash, huncles⟩ := h (.part .uncles)
  have hheader : a.header = b.header :=
    Header.ext hparent hunclesHash (h .coinbase) (h .stateRoot) htransactionsRoot hreceiptsRoot
      hbloom hdifficulty (h .number) (h .gasLimit) (h .gasUsed) (h .time) (h .extraData)
      (h .mixDigest) (h .nonce)
  exact Block.ext hheader htransactions huncles hreceipts (h .totalDifficulty) (h .reward)
    (h .hashIdentity) (h .parentIdentity)

/-! ## The change that writes a whole list -/

/-- The single change that writes the list that the block holds for a part. -/
def rewrite (block : Block) : Content → Mutation
  | .transactions => .setTransactions block.transactions
  | .receipts => .setReceipts block.receipts
  | .uncles => .setUncles block.uncles

theorem target_rewrite (block : Block) (content : Content) :
    (block.rewrite content).target = .part content := by
  cases content <;> rfl

variable {a b block start : Block} {change : Mutation} {changes xs ys : List Mutation}
  {target : Target} {content : Content}

/-- Among changes of other targets, the new one is the only one that writes the part. -/
theorem filter_insert_rewrite {before after : List Mutation}
    (hrest : ∀ change ∈ before ++ after, change.target ≠ .part content) :
    (before ++ block.rewrite content :: after).filter (·.target = .part content) =
      [block.rewrite content] := by
  have hbefore : before.filter (·.target = .part content) = [] :=
    List.filter_eq_nil_iff.mpr fun change hmem => by
      simpa using hrest change (List.mem_append_left _ hmem)
  have hafter : after.filter (·.target = .part content) = [] :=
    List.filter_eq_nil_iff.mpr fun change hmem => by
      simpa using hrest change (List.mem_append_right _ hmem)
  rw [List.filter_append, List.filter_cons, hbefore, hafter]
  simp [target_rewrite]

/-- The new change writes no other target, and neither do those that it stands for. -/
theorem filter_insert_rewrite_of_ne {before after : List Mutation}
    (hothers : changes.filter (·.target ≠ .part content) = before ++ after)
    (htarget : target ≠ .part content) :
    (before ++ block.rewrite content :: after).filter (·.target = target) =
      changes.filter (·.target = target) := by
  have hnew : (block.rewrite content).target ≠ target := by
    rw [target_rewrite]
    exact htarget.symm
  calc (before ++ block.rewrite content :: after).filter (·.target = target)
      = (before ++ after).filter (·.target = target) := by simp [hnew]
    _ = (changes.filter (·.target ≠ .part content)).filter (·.target = target) := by rw [hothers]
    _ = changes.filter (·.target = target) := by
      rw [List.filter_filter]
      refine List.filter_congr fun change _ => ?_
      by_cases hwrites : change.target = target <;> simp [hwrites, htarget]

variable [HashFunction]

/-! ## One change -/

/-- A change leaves everything but its target alone. -/
theorem apply_sameAt (h : change.target ≠ target) : (block.apply change).SameAt block target := by
  cases target with
  | part content =>
    exact apply_samePart fun hcontent => h (Mutation.content?_eq_some_iff.mp hcontent)
  | _ => cases change <;> first | exact absurd rfl h | rfl

/-- What a change leaves at its target depends on nothing but what was there. -/
theorem SameAt.apply (h : a.SameAt b change.target) :
    (a.apply change).SameAt (b.apply change) change.target := by
  cases change with
  | setTransactions transactions => exact ⟨rfl, rfl⟩
  | addTransaction tx =>
    obtain ⟨-, hlist⟩ := h
    have hlists : a.transactions ++ [tx] = b.transactions ++ [tx] := by rw [hlist]
    exact ⟨congrArg (Trie.orderedRoot Transaction.codec) hlists, hlists⟩
  | setReceipts receipts => exact ⟨rfl, rfl, rfl⟩
  | addReceipt receipt =>
    obtain ⟨-, -, hlist⟩ := h
    have hlists : a.receipts ++ [receipt] = b.receipts ++ [receipt] := by rw [hlist]
    exact ⟨congrArg (Trie.orderedRoot Receipt.codec) hlists, congrArg createBloom hlists, hlists⟩
  | setUncles uncles => exact ⟨rfl, rfl⟩
  | _ => rfl

theorem apply_sameOrigin (block : Block) (change : Mutation) :
    (block.apply change).SameOrigin block := by
  cases change <;> exact ⟨rfl, rfl⟩

/-! ## Runs of changes -/

theorem run_sameOrigin (start : Block) (changes : List Mutation) :
    (start.run changes).SameOrigin start := by
  induction changes using List.reverseRecOn with
  | nil => exact ⟨rfl, rfl⟩
  | append_singleton changes change ih =>
    rw [run_append_singleton]
    obtain ⟨hparent, hdifficulty⟩ := apply_sameOrigin (start.run changes) change
    exact ⟨hparent.trans ih.1, hdifficulty.trans ih.2⟩

/-- At each target a run ends as its changes of that target alone do. -/
theorem run_sameAt_filter (start : Block) (changes : List Mutation) (target : Target) :
    (start.run changes).SameAt (start.run (changes.filter (·.target = target))) target := by
  induction changes using List.reverseRecOn with
  | nil => exact SameAt.refl start target
  | append_singleton changes change ih =>
    rw [List.filter_append, run_append_singleton]
    by_cases hwrites : change.target = target
    · have hkept : [change].filter (·.target = target) = [change] := by simp [hwrites]
      rw [hkept, run_append_singleton]
      subst hwrites
      exact ih.apply
    · have hdropped : [change].filter (·.target = target) = [] := by simp [hwrites]
      rw [hdropped, List.append_nil]
      exact (apply_sameAt hwrites).trans ih

/-- Two runs end alike at a target for which they have the same changes. -/
theorem run_sameAt_of_filter_eq
    (h : xs.filter (·.target = target) = ys.filter (·.target = target)) :
    (start.run xs).SameAt (start.run ys) target := by
  have hxs := run_sameAt_filter start xs target
  rw [h] at hxs
  exact hxs.trans (run_sameAt_filter start ys target).symm

/-- Two runs from one block end with the same block if they end alike at each target. -/
theorem run_eq_of_sameAt (h : ∀ target, (start.run xs).SameAt (start.run ys) target) :
    start.run xs = start.run ys := by
  obtain ⟨hparent, hdifficulty⟩ := run_sameOrigin start xs
  obtain ⟨hparent', hdifficulty'⟩ := run_sameOrigin start ys
  exact eq_of_sameAt ⟨hparent.trans hparent'.symm, hdifficulty.trans hdifficulty'.symm⟩ h

/-! ## One write for many -/

/-- Writing the list of a block whose header commits to it gives the same list and fields. -/
theorem apply_rewrite_samePart (h : block.Commits content) :
    (start.apply (block.rewrite content)).SamePart block content := by
  cases content with
  | transactions => exact ⟨h.symm, rfl⟩
  | receipts => exact ⟨h.1.symm, h.2.symm, rfl⟩
  | uncles => exact ⟨h.symm, rfl⟩

/-- All changes of a part can be replaced by one, wherever it stands among the others. -/
theorem run_rewrite {before after : List Mutation}
    (hwritten : ∃ change ∈ changes, change.target = .part content)
    (hothers : changes.filter (·.target ≠ .part content) = before ++ after) :
    start.run (before ++ (start.run changes).rewrite content :: after) = start.run changes := by
  have hrest : ∀ change ∈ before ++ after, change.target ≠ .part content := by
    intro change hmem
    rw [← hothers] at hmem
    simpa using (List.mem_filter.mp hmem).2
  refine run_eq_of_sameAt fun target => ?_
  by_cases htarget : target = .part content
  · subst htarget
    have hrun := run_sameAt_filter start (before ++ (start.run changes).rewrite content :: after)
      (.part content)
    rw [filter_insert_rewrite hrest] at hrun
    -- the new change writes what the run left there, and the run left fields that commit to it
    have hcommits : (start.run changes).Commits content := by
      obtain ⟨change, hmem, hwrites⟩ := hwritten
      exact run_commits ⟨change, hmem, Mutation.content?_eq_some_iff.mpr hwrites⟩
    exact hrun.trans (apply_rewrite_samePart hcommits)
  · exact run_sameAt_of_filter_eq (filter_insert_rewrite_of_ne hothers htarget)

/-- The block at the end of a run does not depend on how changes of different targets are
interleaved: two runs with the same changes of each target end with the same block, and so with the
same hashes and encodings. In every run that writes a part of the body, all changes of that part can
be replaced by the one that sets the resulting list, wherever it stands among the others. -/
theorem run_eq_of_interleaving (start : Block) :
    (∀ xs ys : List Mutation,
      (∀ target, xs.filter (·.target = target) = ys.filter (·.target = target)) →
        start.run xs = start.run ys) ∧
    ∀ (changes before after : List Mutation) (content : Content),
      (∃ change ∈ changes, change.target = .part content) →
      changes.filter (·.target ≠ .part content) = before ++ after →
        start.run (before ++ (start.run changes).rewrite content :: after) = start.run changes :=
  ⟨fun _ _ h => run_eq_of_sameAt fun target => run_sameAt_of_filter_eq (h target),
    fun _ _ _ _ hwritten hothers => run_rewrite hwritten hothers⟩

/-- Transactions that are added around other changes are the same as transactions that are added
after them, or as one list of transactions that is set before them. -/
theorem run_eq_of_interleaving_smallBlock :
    let changes : List Mutation :=
      [.addTransaction {}, .setNumber 5, .addTransaction { nonce := 1 }, .setUncles []]
    let after := smallBlock.run changes
    smallBlock.run
          [.setNumber 5, .setUncles [], .addTransaction {}, .addTransaction { nonce := 1 }] =
        after ∧
      smallBlock.run [.setTransactions after.transactions, .setNumber 5, .setUncles []] =
        after ∧
      smallBlock.run [.setNumber 5, .setTransactions after.transactions, .setUncles []] =
        after := by
  intro changes after
  have hinterleaving := run_eq_of_interleaving smallBlock
  refine ⟨hinterleaving.1 _ changes fun target => ?_, ?_, ?_⟩
  · cases target with
    | part content => cases content <;> rfl
    | _ => rfl
  · exact hinterleaving.2 changes [] [.setNumber 5, .setUncles []] .transactions
      ⟨_, List.mem_cons_self, rfl⟩ rfl
  · exact hinterleaving.2 changes [.setNumber 5] [.setUncles []] .transactions
      ⟨_, List.mem_cons_self, rfl⟩ rfl

end Block

end Ethereum
