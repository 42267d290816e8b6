import Ethereum.Keccak
import Ethereum.Proofs.Block.Interleaving
import Mathlib.Data.List.GetD

/-!
# Blooms are unions

A bloom is looked at through its bits. The digest of an input selects three of them, each by a byte
pair. Setting a bit adds that bit and no other, so a bloom of inputs has the bits that some input
selects, and a union those that one of its parts has. That holds of both levels: the bloom of logs,
over addresses and topics, and the bloom of a block, over the blooms of its receipts. Where each
receipt has the bloom of its own logs the two levels are one.

## Main statements

* `Bloom.mem_positions_iff` — which bits a digest selects.
* `Bloom.testBit_insertBit`, `Bloom.testBit_union` — the bits after each operation.
* `testBit_logsBloom_iff`, `testBit_createBloom_iff` — the bits of the two levels.
* `blooms_cover_exactly` — what the bloom of a block covers.
-/

namespace Ethereum

/-! ## Bits of byte strings -/

/-- Bit `k` of a number stands in the byte that is `k / 8` places before the last. -/
theorem Bytes.testBit_toNat {bs : Bytes} {k : Nat} (h : k < 8 * bs.length) :
    (toNat bs).testBit k = (bs.getD (bs.length - 1 - k / 8) 0).toNat.testBit (k % 8) := by
  induction bs using List.reverseRecOn generalizing k with
  | nil => simp at h
  | append_singleton bs b ih =>
    have hb : b.toNat < 2 ^ 8 := b.toNat_lt
    rw [List.length_append, List.length_singleton] at h ⊢
    rw [toNat_append_singleton, show (256 : Nat) = 2 ^ 8 from rfl,
      Nat.testBit_two_pow_mul_add _ hb]
    by_cases hk : k < 8
    · -- the last byte holds the low bits
      rw [if_pos hk, Nat.div_eq_of_lt hk, Nat.mod_eq_of_lt hk]
      simp
    · rw [if_neg hk, ih (by omega), show (k - 8) % 8 = k % 8 by omega,
        show bs.length + 1 - 1 - k / 8 = bs.length - 1 - (k - 8) / 8 by omega,
        List.getD_append _ _ _ _ (by omega)]

/-- There are no bits in front of the first byte. -/
theorem Bytes.testBit_toNat_of_le {bs : Bytes} {k : Nat} (h : 8 * bs.length ≤ k) :
    (toNat bs).testBit k = false := by
  have hlt := toNat_lt_pow bs
  rw [show (256 : Nat) = 2 ^ 8 from rfl, ← Nat.pow_mul] at hlt
  exact Nat.testBit_lt_two_pow (Nat.lt_of_lt_of_le hlt (Nat.pow_le_pow_right (by decide) h))

/-- Two bytes of a byte string as a number, the first of them the high one. -/
theorem Bytes.toNat_take_two_drop {bs : Bytes} {i : Nat} (h : i + 1 < bs.length) :
    toNat ((bs.drop i).take 2) = 256 * (bs.getD i 0).toNat + (bs.getD (i + 1) 0).toNat := by
  rw [List.drop_eq_getElem_cons (by omega), List.drop_eq_getElem_cons h,
    List.getD_eq_getElem _ _ (by omega), List.getD_eq_getElem _ _ h, List.take_succ_cons,
    List.take_succ_cons, List.take_zero]
  show toNat ([bs[i]] ++ [bs[i + 1]]) = _
  rw [toNat_append_singleton, ← List.nil_append [bs[i]], toNat_append_singleton, toNat_nil]
  omega

/-- A byte with one bit set as well. -/
theorem testBit_or_shiftLeft (b : UInt8) {i j : Nat} (hi : i < 8) :
    (b ||| 1 <<< UInt8.ofNat i).toNat.testBit j = (b.toNat.testBit j || decide (i = j)) := by
  have hshift : ∀ i < 8, ((1 : UInt8) <<< UInt8.ofNat i).toNat = 2 ^ i := by decide
  rw [UInt8.toNat_or, hshift i hi, Nat.testBit_or, Nat.testBit_two_pow]

/-- A byte string with one of its bytes changed. -/
theorem getD_modify {bs : Bytes} {i j : Nat} (f : UInt8 → UInt8) (hj : j < bs.length) :
    (bs.modify i f).getD j 0 = if i = j then f (bs.getD j 0) else bs.getD j 0 := by
  rw [List.getD_eq_getElem _ _ hj, List.getD_eq_getElem _ _ (by simpa using hj),
    List.getElem_modify]

namespace Bloom

variable {a b bloom : Bloom} {k : Nat}

/-- A bit stands in the byte that is `k / 8` places before the last of 256. -/
theorem testBit_eq (bloom : Bloom) (k : Nat) :
    bloom.testBit k =
      (decide (k < 2048) && (bloom.toBytes.getD (255 - k / 8) 0).toNat.testBit (k % 8)) := by
  have hlen := bloom.length_toBytes
  by_cases hk : k < 2048
  · rw [testBit, FixedBytes.toNat, Bytes.testBit_toNat (by omega), hlen]
    simp [hk]
  · rw [testBit, FixedBytes.toNat, Bytes.testBit_toNat_of_le (by omega)]
    simp [hk]

/-- A bloom is its bits. -/
theorem ext_testBit (h : ∀ k, a.testBit k = b.testBit k) : a = b := by
  have hnat : a.toNat = b.toNat := Nat.eq_of_testBit_eq h
  have ha := Bytes.bigEndian_toNat a.toBytes
  have hb := Bytes.bigEndian_toNat b.toBytes
  rw [a.length_toBytes] at ha
  rw [b.length_toBytes] at hb
  apply FixedBytes.ext
  rw [← ha, ← hb]
  exact congrArg (Bytes.bigEndian 256) hnat

@[simp] theorem testBit_empty (k : Nat) : empty.testBit k = false := by
  have hzero : empty.toNat = 0 := by decide +kernel
  rw [testBit, hzero, Nat.zero_testBit]

/-- Setting a bit adds that bit and no other. -/
theorem testBit_insertBit (bloom : Bloom) {i : Nat} (hi : i < 2048) (k : Nat) :
    (bloom.insertBit i).testBit k = (bloom.testBit k || decide (i = k)) := by
  rw [testBit_eq, testBit_eq, insertBit]
  by_cases hk : k < 2048
  · have hlen := bloom.length_toBytes
    dsimp only
    rw [getD_modify _ (by omega)]
    by_cases hbyte : i / 8 = k / 8
    · have hplace : i % 8 = k % 8 ↔ i = k := by omega
      rw [if_pos (by omega), testBit_or_shiftLeft _ (Nat.mod_lt i (by decide))]
      simp [hk, hplace]
    · -- another byte, and so another bit
      have hne : i ≠ k := fun h => hbyte (h ▸ rfl)
      rw [if_neg (by omega)]
      simp [hne]
  · have hne : i ≠ k := by omega
    simp [hk, hne]

/-- A union has the bits of its parts. -/
theorem testBit_union (a b : Bloom) (k : Nat) :
    (a.union b).testBit k = (a.testBit k || b.testBit k) := by
  rw [testBit_eq, testBit_eq, testBit_eq, union]
  by_cases hk : k < 2048
  · have ha : 255 - k / 8 < a.toBytes.length := by rw [a.length_toBytes]; omega
    have hb : 255 - k / 8 < b.toBytes.length := by rw [b.length_toBytes]; omega
    have hzip : 255 - k / 8 < (a.toBytes.zipWith (· ||| ·) b.toBytes).length := by simp; omega
    rw [List.getD_eq_getElem _ _ hzip, List.getElem_zipWith, List.getD_eq_getElem _ _ ha,
      List.getD_eq_getElem _ _ hb, UInt8.toNat_or, Nat.testBit_or, Bool.and_or_distrib_left]
  · simp [hk]

/-- If each step of a fold adds the bits of one item, the fold adds those of all items. -/
theorem testBit_foldl {α : Type} {step : Bloom → α → Bloom} {bits : α → Nat → Prop}
    {items : List α}
    (hstep : ∀ item ∈ items, ∀ bloom k,
      (step bloom item).testBit k = true ↔ bloom.testBit k = true ∨ bits item k)
    (start : Bloom) (k : Nat) :
    (items.foldl step start).testBit k = true ↔
      start.testBit k = true ∨ ∃ item ∈ items, bits item k := by
  induction items generalizing start with
  | nil => simp
  | cons item items ih =>
    have hfirst := hstep item List.mem_cons_self start k
    have hrest := ih (fun other hother => hstep other (List.mem_cons_of_mem _ hother))
      (step start item)
    rw [List.foldl_cons, hrest, hfirst, or_assoc, List.exists_mem_cons_iff]

/-! ## Blooms of inputs -/

section
variable [HashFunction] {inputs : List Bytes} {input : Bytes}

/-- Whether an input selects a bit: one of the first three byte pairs of its digest, read
big-endian, is the number of the bit modulo 2048. -/
def Selects (input : Bytes) (k : Nat) : Prop :=
  ∃ pair < 3, Bytes.toNat (((digest input).toBytes.drop (2 * pair)).take 2) % 2048 = k

/-- There are no other bits in a bloom to select. -/
theorem Selects.lt (h : Selects input k) : k < 2048 := by
  obtain ⟨pair, -, rfl⟩ := h
  exact Nat.mod_lt _ (by decide)

/-- The bits that an input selects stand in the digest of the input. -/
theorem mem_positions_iff : k ∈ positions input ↔ Selects input k := by
  have hlen := (digest input).length_toBytes
  have hpair : ∀ pair < 3, Bytes.toNat (((digest input).toBytes.drop (2 * pair)).take 2) =
      256 * ((digest input).toBytes.getD (2 * pair) 0).toNat +
        ((digest input).toBytes.getD (2 * pair + 1) 0).toNat :=
    fun pair hlt => Bytes.toNat_take_two_drop (by omega)
  constructor
  · intro h
    obtain ⟨i, hi, rfl⟩ := List.mem_map.mp h
    -- the three pairs start at twice their number
    obtain ⟨pair, hlt, rfl⟩ : ∃ pair < 3, i = 2 * pair :=
      (by decide : ∀ i ∈ [0, 2, 4], ∃ pair < 3, i = 2 * pair) i hi
    exact ⟨pair, hlt, congrArg (· % 2048) (hpair pair hlt)⟩
  · rintro ⟨pair, hlt, rfl⟩
    rw [hpair pair hlt]
    exact List.mem_map.mpr
      ⟨2 * pair, (by decide : ∀ pair < 3, 2 * pair ∈ [0, 2, 4]) pair hlt, rfl⟩

/-- An input adds the bits that it selects and no others. -/
theorem testBit_insert (bloom : Bloom) (input : Bytes) (k : Nat) :
    (bloom.insert input).testBit k = true ↔ bloom.testBit k = true ∨ Selects input k := by
  have hbits : ∀ i ∈ positions input, ∀ bloom k,
      (insertBit bloom i).testBit k = true ↔ bloom.testBit k = true ∨ i = k := by
    intro i hi bloom k
    rw [testBit_insertBit bloom (mem_positions_iff.mp hi).lt, Bool.or_eq_true, decide_eq_true_eq]
  rw [insert, testBit_foldl hbits, exists_eq_right, mem_positions_iff]

/-- The bloom of inputs has the bits that some input selects. -/
theorem testBit_ofInputs_iff :
    (ofInputs inputs).testBit k = true ↔ ∃ input ∈ inputs, Selects input k := by
  rw [ofInputs, testBit_foldl fun input _ bloom k => testBit_insert bloom input k]
  simp

/-- Whether a bloom has every bit that an input selects. -/
def Covers (bloom : Bloom) (input : Bytes) : Prop := ∀ k, Selects input k → bloom.testBit k = true

end

end Bloom

/-! ## Blooms of receipts -/

section
variable {receipts xs ys : List Receipt} {k : Nat}

/-- The bloom of receipts has the bits that the bloom of some receipt has. -/
theorem testBit_createBloom_iff :
    (createBloom receipts).testBit k = true ↔
      ∃ receipt ∈ receipts, receipt.bloom.testBit k = true := by
  have hstep : ∀ receipt ∈ receipts, ∀ (bloom : Bloom) k,
      (bloom.union receipt.bloom).testBit k = true ↔
        bloom.testBit k = true ∨ receipt.bloom.testBit k = true := by
    intro receipt _ bloom k
    rw [Bloom.testBit_union, Bool.or_eq_true]
  rw [createBloom, Bloom.testBit_foldl hstep]
  simp

theorem createBloom_append (xs ys : List Receipt) :
    createBloom (xs ++ ys) = (createBloom xs).union (createBloom ys) := by
  refine Bloom.ext_testBit fun k => Bool.eq_iff_iff.mpr ?_
  rw [Bloom.testBit_union, Bool.or_eq_true, testBit_createBloom_iff, testBit_createBloom_iff,
    testBit_createBloom_iff]
  simp only [List.mem_append, or_and_right, exists_or]

/-- Neither the order nor the number of times counts. -/
theorem createBloom_congr (h : ∀ receipt, receipt ∈ xs ↔ receipt ∈ ys) :
    createBloom xs = createBloom ys := by
  refine Bloom.ext_testBit fun k => Bool.eq_iff_iff.mpr ?_
  simp only [testBit_createBloom_iff, h]

end

/-! ## Blooms of logs -/

section
variable [HashFunction] {logs : List Log} {receipts : List Receipt} {k : Nat}

/-- The bloom of logs has the bits that some address or some topic selects. -/
theorem testBit_logsBloom_iff :
    (logsBloom logs).testBit k = true ↔
      ∃ log ∈ logs, Bloom.Selects log.address.toBytes k ∨
        ∃ topic ∈ log.topics, Bloom.Selects topic.toBytes k := by
  rw [logsBloom, Bloom.testBit_ofInputs_iff]
  constructor
  · rintro ⟨input, hinput, hk⟩
    obtain ⟨log, hlog, hmem⟩ := List.mem_flatMap.mp hinput
    rcases List.mem_cons.mp hmem with rfl | hmem
    · exact ⟨log, hlog, .inl hk⟩
    · obtain ⟨topic, htopic, rfl⟩ := List.mem_map.mp hmem
      exact ⟨log, hlog, .inr ⟨topic, htopic, hk⟩⟩
  · rintro ⟨log, hlog, hk | ⟨topic, htopic, hk⟩⟩
    · exact ⟨_, List.mem_flatMap.mpr ⟨log, hlog, List.mem_cons_self⟩, hk⟩
    · exact ⟨_, List.mem_flatMap.mpr
        ⟨log, hlog, List.mem_cons_of_mem _ (List.mem_map_of_mem htopic)⟩, hk⟩

/-- Logs with the same addresses and topics have the same bloom. -/
theorem logsBloom_congr {others : List Log}
    (h : logs.map (fun log => (log.address, log.topics)) =
      others.map fun log => (log.address, log.topics)) : logsBloom logs = logsBloom others := by
  have hinputs : ∀ logs : List Log, logs.flatMap Log.bloomInputs =
      (logs.map fun log => (log.address, log.topics)).flatMap fun fields =>
        fields.1.toBytes :: fields.2.map (·.toBytes) := fun logs => by
    rw [List.flatMap_map]
    rfl
  rw [logsBloom, logsBloom, hinputs, hinputs, h]

/-- Whether a receipt has the bloom of its own logs. -/
def Receipt.IsOfLogs (receipt : Receipt) : Prop :=
  receipt = .ofLogs receipt.postState receipt.cumulativeGasUsed receipt.logs

theorem Receipt.IsOfLogs.bloom_eq {receipt : Receipt} (h : receipt.IsOfLogs) :
    receipt.bloom = logsBloom receipt.logs :=
  congrArg Receipt.bloom h

/-- Where each receipt has the bloom of its own logs, the bloom of all is that of all logs. -/
theorem createBloom_eq_logsBloom (h : ∀ receipt ∈ receipts, receipt.IsOfLogs) :
    createBloom receipts = logsBloom (receipts.flatMap (·.logs)) := by
  refine Bloom.ext_testBit fun k => Bool.eq_iff_iff.mpr ?_
  rw [testBit_createBloom_iff, testBit_logsBloom_iff]
  constructor
  · rintro ⟨receipt, hreceipt, hk⟩
    rw [(h receipt hreceipt).bloom_eq] at hk
    obtain ⟨log, hlog, hk⟩ := testBit_logsBloom_iff.mp hk
    exact ⟨log, List.mem_flatMap.mpr ⟨receipt, hreceipt, hlog⟩, hk⟩
  · rintro ⟨log, hlog, hk⟩
    obtain ⟨receipt, hreceipt, hlog⟩ := List.mem_flatMap.mp hlog
    refine ⟨receipt, hreceipt, ?_⟩
    rw [(h receipt hreceipt).bloom_eq]
    exact testBit_logsBloom_iff.mpr ⟨log, hlog, hk⟩

end

/-! ## The bloom of a block -/

namespace Block

variable [HashFunction] {block : Block}

/-- A header that commits to the receipts covers every address and topic of their logs, as far as
the receipts do. -/
theorem Commits.covers (h : block.Commits .receipts) {receipt : Receipt}
    (hreceipt : receipt ∈ block.receipts) (hlogs : receipt.IsOfLogs) {log : Log}
    (hlog : log ∈ receipt.logs) : ∀ input ∈ log.bloomInputs, block.header.logsBloom.Covers input := by
  intro input hinput k hk
  rw [h.2, testBit_createBloom_iff]
  refine ⟨receipt, hreceipt, ?_⟩
  rw [hlogs.bloom_eq, logsBloom, Bloom.testBit_ofInputs_iff]
  exact ⟨input, List.mem_flatMap.mpr ⟨log, hlog, hinput⟩, hk⟩

/-- A receipt that is added to receipts that the header commits to adds the bits of its bloom. -/
theorem Commits.logsBloom_addReceipt (h : block.Commits .receipts) (receipt : Receipt) :
    (block.addReceipt receipt).header.logsBloom = block.header.logsBloom.union receipt.bloom := by
  show createBloom (block.receipts ++ [receipt]) = _
  rw [h.2, createBloom, List.foldl_append]
  rfl

end Block

/-- Blooms cover exactly what they are made of. The three bits that an input selects are the first
three byte pairs of its digest, modulo 2048. The bloom of logs has the bits that an address or a
topic of some log selects, and no others: the rest of a log does not count. The bloom of receipts is
the union of theirs, so that of two lists is the union of two, and neither the order of receipts nor
repeating them counts; if each receipt has the bloom of its own logs, it is the bloom of all logs.
So after a run that wrote the receipts of a block, its header covers every address and topic of
every log of such receipts, and a receipt that is added clears no bit. -/
theorem blooms_cover_exactly [HashFunction] :
    (∀ input, (Bloom.positions input).length = 3 ∧
      ∀ k, k ∈ Bloom.positions input ↔ Bloom.Selects input k) ∧
    (∀ (input : Bytes) (k : Nat), Bloom.Selects input k → k < 2048) ∧
    (∀ (logs : List Log) (k : Nat), (logsBloom logs).testBit k = true ↔
      ∃ log ∈ logs, Bloom.Selects log.address.toBytes k ∨
        ∃ topic ∈ log.topics, Bloom.Selects topic.toBytes k) ∧
    (∀ logs others : List Log,
      logs.map (fun log => (log.address, log.topics)) =
        others.map (fun log => (log.address, log.topics)) → logsBloom logs = logsBloom others) ∧
    (∀ (receipts : List Receipt) (k : Nat), (createBloom receipts).testBit k = true ↔
      ∃ receipt ∈ receipts, receipt.bloom.testBit k = true) ∧
    (∀ xs ys : List Receipt, createBloom (xs ++ ys) = (createBloom xs).union (createBloom ys)) ∧
    (∀ xs ys : List Receipt, (∀ receipt, receipt ∈ xs ↔ receipt ∈ ys) →
      createBloom xs = createBloom ys) ∧
    (∀ receipts : List Receipt, (∀ receipt ∈ receipts, receipt.IsOfLogs) →
      createBloom receipts = logsBloom (receipts.flatMap (·.logs))) ∧
    ∀ (start : Block) (changes : List Mutation),
      (∃ change ∈ changes, change.target = .part .receipts) →
        let block := start.run changes
        (∀ receipt ∈ block.receipts, receipt.IsOfLogs → ∀ log ∈ receipt.logs,
          block.header.logsBloom.Covers log.address.toBytes ∧
            ∀ topic ∈ log.topics, block.header.logsBloom.Covers topic.toBytes) ∧
        ∀ (receipt : Receipt) (k : Nat), block.header.logsBloom.testBit k = true →
          (block.addReceipt receipt).header.logsBloom.testBit k = true := by
  refine ⟨fun input => ⟨rfl, fun k => Bloom.mem_positions_iff⟩, fun input k h => h.lt,
    fun logs k => testBit_logsBloom_iff, fun logs others => logsBloom_congr,
    fun receipts k => testBit_createBloom_iff, createBloom_append, fun xs ys => createBloom_congr,
    fun receipts => createBloom_eq_logsBloom, fun start changes hwritten => ?_⟩
  intro block
  have hcommits : block.Commits .receipts := by
    obtain ⟨change, hmem, hwrites⟩ := hwritten
    exact Block.run_commits ⟨change, hmem, Mutation.content?_eq_some_iff.mpr hwrites⟩
  refine ⟨fun receipt hreceipt hlogs log hlog => ?_, fun receipt k hk => ?_⟩
  · have hinputs := hcommits.covers hreceipt hlogs hlog
    exact ⟨hinputs _ List.mem_cons_self, fun topic htopic =>
      hinputs _ (List.mem_cons_of_mem _ (List.mem_map_of_mem htopic))⟩
  · rw [hcommits.logsBloom_addReceipt, Bloom.testBit_union, hk, Bool.true_or]

/-- Two receipts with the blooms of their logs, one set and one added: the header covers the topic of
the first after the second is there, bit 270 among others, and is the bloom of both logs. -/
theorem blooms_cover_exactly_receipts :
    let topic : Hash := .ofNat 32 1
    let first : Receipt := .ofLogs (.zero 32) 21000 [{ topics := [topic] }]
    let second : Receipt := .ofLogs (.zero 32) 42000 [{ address := .ofNat 20 2, data := [0x80] }]
    let block := Block.smallBlock.run [.setReceipts [first], .setNumber 7, .addReceipt second]
    block.receipts = [first, second] ∧ block.header.logsBloom.Covers topic.toBytes ∧
      block.header.logsBloom.testBit 270 = true ∧
      createBloom [first, second] = logsBloom (first.logs ++ second.logs) ∧
      createBloom [second, first, second] = createBloom [first, second] := by
  intro topic first second block
  obtain ⟨-, -, -, -, -, -, hmembers, hlogs, hblock⟩ := blooms_cover_exactly
  obtain ⟨hcovers, -⟩ := hblock Block.smallBlock
    [.setReceipts [first], .setNumber 7, .addReceipt second] ⟨_, List.mem_cons_self, rfl⟩
  have htopic : block.header.logsBloom.Covers topic.toBytes :=
    (hcovers first List.mem_cons_self rfl { topics := [topic] } List.mem_cons_self).2 topic
      List.mem_cons_self
  have hselects : Bloom.Selects topic.toBytes 270 := ⟨0, by decide, by decide +kernel⟩
  refine ⟨rfl, htopic, htopic 270 hselects, hlogs [first, second] ?_, hmembers _ _ ?_⟩
  · intro receipt hreceipt
    rcases List.mem_pair.mp hreceipt with rfl | rfl
    · rfl
    · rfl
  · simp [or_comm]

end Ethereum
