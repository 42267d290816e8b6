import Ethereum.Proofs.Tool.Build
import Ethereum.Proofs.Tool.Printed

/-!
# What the commands say about one header

The command `decode` reads a header inside of a block and hashes what it would write of it; the
command `header-hash` reads a header that stands alone. Headers have one spelling, so both hash the
bytes that stood in the block, and say the same of them. What `decode` says of the rest fits
together too: it warns of a body exactly when it sums the body up as inconsistent, and the size that
it names is the length of its input exactly when it names no total difficulty. All of this is about
the text that is printed, as `Shows` reads it.

## Main statements

* `Rlp.takeItem_encodeItem` — the first item of a byte string, as the bytes at its place.
* `runDecode_eq_ok_iff` — what an accepted block makes the command log and print.
* `decode_agrees_with_headerHash` — what the two commands print about one header, and the parts of
  a summary.
-/

namespace Ethereum

namespace Rlp

/-- Splits the first item off a byte string, as the bytes at its place: its head and its payload,
neither of them looked into. -/
def takeItem (bs : Bytes) : Except Error (Bytes × Bytes) := do
  let (head, body) ← Head.decode bs
  .ok (bs.splitAt (bs.length - body.length + head.payload))

/-- An item is split off with all of its bytes and nothing of what follows. -/
theorem takeItem_encodeItem (kind : ItemKind) {payload : Bytes} (rest : Bytes)
    (hsize : payload.length < 2 ^ 64) :
    takeItem (encodeItem kind payload ++ rest) = .ok (encodeItem kind payload, rest) := by
  refine bind_eq_ok_iff.mpr ⟨_, Head.decode_encodeItem kind rest hsize, ?_⟩
  have hle := length_le_length_encodeItem kind payload
  have hlen : (encodeItem kind payload ++ rest).length - (payload ++ rest).length +
      payload.length = (encodeItem kind payload).length := by
    rw [List.length_append, List.length_append]
    omega
  dsimp only
  rw [hlen, List.splitAt_eq, List.take_left' rfl, List.drop_left' rfl]

end Rlp

namespace Block

open Rlp

/-- The first element of the list that a byte string is, as the bytes at its place. -/
def firstElement (bs : Bytes) : Except Error Bytes := do
  let (payload, _) ← takePayload .list bs
  let (first, _) ← takeItem payload
  .ok first

/-- The header is a part of what a block stores. -/
theorem length_encode_header_le (block : Block) :
    (Header.codec.encode block.header).length ≤ block.storagePayload := by
  rw [← length_storageBody, storageBody_eq, List.length_append]
  exact Nat.le_add_right _ _

/-- The first element of a block is its header, as it was written. -/
theorem firstElement_storageBytes {block : Block} (h : block.storagePayload < 2 ^ 64) :
    firstElement block.storageBytes = .ok (Header.codec.encode block.header) := by
  have hle := length_le_length_encodeItem .list (Header.fields.encode block.header)
  rw [← Header.fields_lawful.encode_record] at hle
  have hsize : (Header.fields.encode block.header).length < 2 ^ 64 :=
    Nat.lt_of_le_of_lt (Nat.le_trans hle block.length_encode_header_le) h
  rw [← length_storageBody] at h
  have hpayload := takePayload_encodeItem .list [] h
  rw [List.append_nil, ← storageBytes_eq, storageBody_eq] at hpayload
  have hitem := takeItem_encodeItem .list
    ((Codec.list Transaction.codec).encode block.transactions ++
      ((Codec.list Header.codec).encode block.uncles ++ difficultyBytes block.totalDifficulty)) hsize
  rw [← Header.fields_lawful.encode_record] at hitem
  exact bind_eq_ok_iff.mpr ⟨_, hpayload, bind_eq_ok_iff.mpr ⟨_, hitem, rfl⟩⟩

/-- The storage form is as long as the network form exactly when there is nothing to store. -/
theorem size_eq_length_storageBytes_iff (block : Block) :
    block.size = block.storageBytes.length ↔ block.totalDifficulty = none := by
  rw [length_storageBytes, size]
  cases hdifficulty : block.totalDifficulty with
  | none => simp [storagePayload, hdifficulty]
  | some difficulty =>
    have hpos := List.length_pos_iff.mpr (Codec.uint256_lawful.encode_ne_nil difficulty)
    rw [Codec.uint256_lawful.length_encode] at hpos
    have hstored : block.storagePayload =
        block.networkPayload + Codec.uint256.length difficulty := by
      rw [storagePayload, hdifficulty]
      rfl
    have hmono : Head.size block.networkPayload ≤ Head.size block.storagePayload :=
      Head.size_mono (by omega)
    simp only [reduceCtorEq, iff_false]
    omega

end Block

namespace Tool

open Text

section
variable [HashFunction] {env : Environment} {source : InputSource} {events : List Event}
  {output : String}

omit [HashFunction] in
/-- Bytes are taken in from each source that gives what was written of them. -/
theorem readInput_encode {bs : Bytes} (h : source.Gives env (Hex.encode bs)) :
    readInput env source = .ok bs := by
  have hnone : ∀ c ∈ ([] : List Char), isBlank c := by simp
  have hdecode := Hex.decodeInput_encode bs hnone hnone
  rw [List.nil_append, List.append_nil] at hdecode
  rw [readInput_of_gives h, hdecode]
  rfl

/-- What is logged about a block that was decoded. -/
def warnings (block : Block) : List Event :=
  match block.verifyBody with
  | .ok _ => []
  | .error fault => [.rootsDiffer fault]

/-- A block is warned of exactly when its body is not consistent, and that is what its summary
shows. -/
theorem exists_warning_iff (block : Block) :
    (∃ event ∈ warnings block, event.level = "WARN" ∧
        event.message = "header roots do not match decoded body") ↔
      Shows (renderSummary (summarizeBlock block)) "bodyConsistent" "false" := by
  rw [shows_bodyConsistent_iff]
  cases hverify : block.verifyBody with
  | ok _ => simp [warnings, hverify]
  | error fault => simp [warnings, hverify, Event.level, Event.message]

/-- The size that a summary shows is the length of the storage form exactly when the summary shows
no total difficulty. -/
theorem shows_size_iff_shows_null (block : Block) :
    Shows (renderSummary (summarizeBlock block)) "size" (toString block.storageBytes.length) ↔
      Shows (renderSummary (summarizeBlock block)) "totalDifficulty" "null" := by
  rw [shows_size_iff, shows_totalDifficulty_null_iff, ← block.size_eq_length_storageBytes_iff,
    toString_inj, eq_comm]

/-- The command gives an output exactly when its input is a block, and then sums up that block. -/
theorem runDecode_eq_ok_iff :
    runDecode env source = (events, .ok output) ↔
      ∃ bs block, readInput env source = .ok bs ∧ Block.decode bs = .ok block ∧
        events = warnings block ∧ output = renderSummary (summarizeBlock block) := by
  -- the result of the two steps that may fail, which the command then looks at
  rw [runDecode]
  generalize hdecoded : (do
    let bs ← readInput env source
    orFault (Block.decode bs) .blockUndecodable) = decoded
  have hsteps : ∀ block, decoded = .ok block ↔
      ∃ bs, readInput env source = .ok bs ∧ Block.decode bs = .ok block := by
    intro block
    rw [← hdecoded, bind_eq_ok_iff]
    simp only [orFault_eq_ok_iff]
  constructor
  · intro h
    split at h
    · simp at h
    · next block =>
      obtain ⟨bs, hread, hdecode⟩ := (hsteps block).mp rfl
      obtain ⟨hevents, houtput⟩ := Prod.mk.inj h
      exact ⟨bs, block, hread, hdecode, hevents.symm, (Except.ok.inj houtput).symm⟩
  · rintro ⟨bs, block, hread, hdecode, rfl, rfl⟩
    rw [(hsteps block).mpr ⟨bs, hread, hdecode⟩]
    rfl

/-- The command gives an output exactly when its input is a header, and then its two digests. -/
theorem runHeaderHash_eq_ok_iff :
    runHeaderHash env source = (events, .ok output) ↔
      ∃ bs header, readInput env source = .ok bs ∧ Header.codec.decodeExact bs = .ok header ∧
        events = [] ∧ output = renderSummary (summarizeHeader header) := by
  rw [runHeaderHash, Prod.mk.injEq, bind_eq_ok_iff]
  simp only [bind_eq_ok_iff, orFault_eq_ok_iff]
  constructor
  · rintro ⟨rfl, bs, hread, header, hdecode, houtput⟩
    exact ⟨bs, header, hread, hdecode, rfl, (Except.ok.inj houtput).symm⟩
  · rintro ⟨bs, header, hread, hdecode, rfl, rfl⟩
    exact ⟨rfl, bs, hread, header, hdecode, rfl⟩

/-- The two commands agree with each other and with the bytes, in what they print. Where the input
of `decode` is taken as a block, the first element of the list that the input is, as the bytes at
its place, is taken as a header by `header-hash` from wherever it is read, and it can be read from a
word and from a file. Both commands show the same two digests, the first of which is that of those
bytes. The block is warned of exactly when its summary shows that its body is not consistent, and
the size that the summary shows is the length of the input exactly when it shows no total
difficulty. -/
theorem decode_agrees_with_headerHash (env : Environment) (source : InputSource) (bs : Bytes)
    (events : List Event) (output : String) (hread : readInput env source = .ok bs)
    (hrun : runDecode env source = (events, .ok output)) :
    ∃ (block : Block) (first : Bytes),
      let printed := renderSummary (summarizeHeader block.header)
      Block.decode bs = .ok block ∧ output = renderSummary (summarizeBlock block) ∧
      Block.firstElement bs = .ok first ∧
      (∀ (reading : Environment) (source' : InputSource),
        source'.Gives reading (Hex.encode first) → readInput reading source' = .ok first) ∧
      (∀ (reading : Environment) (source' : InputSource), readInput reading source' = .ok first →
        runHeaderHash reading source' = ([], .ok printed)) ∧
      (∀ value, Shows output "hash" value ↔ IsQuotedHex value (digest first).toBytes) ∧
      (∀ value, Shows printed "hash" value ↔ IsQuotedHex value (digest first).toBytes) ∧
      (∀ value, Shows output "hashNoNonce" value ↔
        IsQuotedHex value block.header.hashNoNonce.toBytes) ∧
      (∀ value, Shows printed "hashNoNonce" value ↔
        IsQuotedHex value block.header.hashNoNonce.toBytes) ∧
      (∀ value, Shows output "bodyConsistent" value ↔
        block.verifyBody = .ok () ∧ value = "true" ∨
          block.verifyBody ≠ .ok () ∧ value = "false") ∧
      ((∃ event ∈ events, event.level = "WARN" ∧
          event.message = "header roots do not match decoded body") ↔
        Shows output "bodyConsistent" "false") ∧
      (∀ value, Shows output "size" value ↔ value = toString block.size) ∧
      (Shows output "totalDifficulty" "null" ↔ block.totalDifficulty = none) ∧
      (Shows output "size" (toString bs.length) ↔ Shows output "totalDifficulty" "null") := by
  obtain ⟨bs', block, hread', hdecode, rfl, rfl⟩ := runDecode_eq_ok_iff.mp hrun
  obtain rfl : bs = bs' := Except.ok.inj (hread.symm.trans hread')
  obtain ⟨hidentity, -⟩ := Block.identities_of_decode hdecode
  obtain ⟨rfl, hsize, -⟩ := Block.decode_eq_ok_iff.mp hdecode
  have hheader : Header.codec.decodeExact (Header.codec.encode block.header) = .ok block.header :=
    Header.codec_lawful.decodeExact_encode (Nat.lt_of_le_of_lt block.length_encode_header_le hsize)
  have hhash : ∀ value, Shows (renderSummary (summarizeBlock block)) "hash" value ↔
      IsQuotedHex value (digest (Header.codec.encode block.header)).toBytes := by
    intro value
    rw [shows_hash_iff, Block.hash_of_computed hidentity]
    rfl
  exact ⟨block, Header.codec.encode block.header, hdecode, rfl,
    Block.firstElement_storageBytes hsize, fun reading source' hgives => readInput_encode hgives,
    fun reading source' hfirst =>
      runHeaderHash_eq_ok_iff.mpr ⟨_, block.header, hfirst, hheader, rfl, rfl⟩,
    hhash, fun value => shows_header_hash_iff, fun value => shows_hashNoNonce_iff,
    fun value => shows_header_hashNoNonce_iff, fun value => shows_bodyConsistent_iff,
    exists_warning_iff block, fun value => shows_size_iff, shows_totalDifficulty_null_iff,
    shows_size_iff_shows_null block⟩

end

/-- The small block is stored with a total difficulty, and its header does not fit its body: it is
warned of, it shows another size than the length of its input, and its header is read alone and
shown with the same digest. -/
theorem decode_agrees_with_headerHash_smallBlock :
    let bs := Block.smallBlock.storageBytes
    let output := renderSummary (summarizeBlock Block.smallBlock)
    let printed := renderSummary (summarizeHeader Block.smallBlock.header)
    ∃ first events,
      readInput {} (.hex (Hex.encode bs)) = .ok bs ∧
      runDecode {} (.hex (Hex.encode bs)) = (events, .ok output) ∧
      Block.firstElement bs = .ok first ∧
      runHeaderHash {} (.hex (Hex.encode first)) = ([], .ok printed) ∧
      (∀ value, Shows output "hash" value ↔ Shows printed "hash" value) ∧
      Shows output "hash" ("\"" ++ (digest first).toHex ++ "\"") ∧
      (∃ event ∈ events, event.level = "WARN" ∧
        event.message = "header roots do not match decoded body") ∧
      Shows output "bodyConsistent" "false" ∧ ¬ Shows output "size" (toString bs.length) := by
  intro bs output printed
  have hdecode : Block.decode bs = .ok Block.smallBlock := by decide +kernel
  have hread : readInput {} (.hex (Hex.encode bs)) = .ok bs := readInput_encode rfl
  have hrun : runDecode {} (.hex (Hex.encode bs)) = (warnings Block.smallBlock, .ok output) :=
    runDecode_eq_ok_iff.mpr ⟨bs, Block.smallBlock, hread, hdecode, rfl, rfl⟩
  obtain ⟨block, first, hblock, -, hfirst, hgives, hheader, hhash, hprinted, -, -, hbody, hwarned,
    -, hnull, hsize⟩ := decode_agrees_with_headerHash {} _ bs _ _ hread hrun
  obtain rfl : Block.smallBlock = block := Except.ok.inj (hdecode.symm.trans hblock)
  have hroot : Trie.orderedRoot Transaction.codec Block.smallBlock.transactions ≠
      Block.smallBlock.header.transactionsRoot := by decide +kernel
  have hverify : Block.smallBlock.verifyBody ≠ .ok () := by
    rw [Block.verifyBody, if_pos hroot]
    simp
  have hshown : Shows output "bodyConsistent" "false" := (hbody _).mpr (.inr ⟨hverify, rfl⟩)
  refine ⟨first, _, hread, hrun, hfirst, hheader {} _ (hgives {} _ rfl),
    fun value => (hhash value).trans (hprinted value).symm,
    (hhash _).mpr (SummaryValue.render_toHex_eq_iff.mp rfl), hwarned.mpr hshown, hshown,
    fun hequal => ?_⟩
  have hnone := hnull.mp (hsize.mp hequal)
  simp [Block.smallBlock] at hnone

end Tool

end Ethereum
