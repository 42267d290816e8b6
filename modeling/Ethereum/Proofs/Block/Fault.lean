import Ethereum.Proofs.Block.Wire
import Ethereum.Proofs.Rlp.Fault

/-!
# What a fault says about the bytes of a block

A reader takes the outer list first and then its parts, one after the other, so a fault is one of
the payload as soon as there is one, and what follows the outer list does not matter to it. Every
part has one spelling, so each fault that is not one of an item is given by exactly the byte strings
of one shape: a payload that ends where a part should start, a complete block with something behind
it, a fifth part.

## Main statements

* `readParts_eq_missingPart_iff` — where a payload ends that misses a part.
* `decodeFront_fault` — the faults of a block.
* `decode_faults` — each fault and the byte strings that give it.
-/

namespace Ethereum.Block

open Rlp

/-! ## The payload of the outer list -/

/-- Reads the parts of a block, which have to be all there is. -/
def readParts (payload : Bytes) : Except BlockError Block := do
  let (header, rest) ← takePart .header Header.codec payload
  let (transactions, rest) ← takePart .transactions (Codec.list Transaction.codec) rest
  let (uncles, rest) ← takePart .uncles (Codec.list Header.codec) rest
  let (totalDifficulty, rest) ← takeTotalDifficulty rest
  if rest.isEmpty then .ok { header, transactions, uncles, totalDifficulty }
  else
    .error (.malformedEncoding
      (.listLengthMismatch (payload.length - rest.length) payload.length))

/-- A block is read from the payload of the outer list, and what follows the list is left. -/
theorem decodeFront_eq (bs : Bytes) :
    decodeFront bs = (do
      let (payload, after) ← liftRlp (takePayload .list bs)
      let block ← readParts payload
      .ok (block, after)) := by
  unfold decodeFront readParts
  simp only [bind_assoc]
  refine bind_congr fun ⟨payload, after⟩ => bind_congr fun ⟨header, rest⟩ => ?_
  refine bind_congr fun ⟨transactions, rest⟩ => bind_congr fun ⟨uncles, rest⟩ => ?_
  refine bind_congr fun ⟨difficulty, rest⟩ => ?_
  dsimp only
  split <;> rfl

section
variable {payload rest : Bytes} {fault : BlockError}

/-- A fault of the payload is a fault of the block, whatever follows the outer list. -/
theorem decodeFront_encodeList_eq_error_iff (hsize : payload.length < 2 ^ 64) :
    decodeFront (encodeList payload ++ rest) = .error fault ↔ readParts payload = .error fault := by
  have htake := takePayload_encodeItem .list rest hsize
  rw [encodeItem_list] at htake
  rw [decodeFront_eq, htake]
  cases hparts : readParts payload with
  | ok block => simp [liftRlp, bind, Except.bind, hparts]
  | error e => simp [liftRlp, bind, Except.bind, hparts]

/-! ## Parts -/

/-- A part that is not read is missing, or it is not in its format. -/
theorem takePart_eq_error {α : Type} {c : Codec α} {part : BlockPart}
    (h : takePart part c payload = .error fault) :
    payload = [] ∧ fault = .missingPart part ∨
      ∃ cause, c.decode payload = .error cause ∧ fault = .malformedEncoding cause := by
  rw [takePart] at h
  split at h
  · next hempty => exact .inl ⟨List.isEmpty_iff.mp hempty, (Except.error.inj h).symm⟩
  · exact .inr (liftRlp_eq_error_iff.mp h)

theorem takePart_nil {α : Type} (c : Codec α) (part : BlockPart) :
    takePart part c [] = .error (.missingPart part) := rfl

theorem takeTotalDifficulty_eq_error (h : takeTotalDifficulty payload = .error fault) :
    ∃ cause, Codec.uint256.decode payload = .error cause ∧ fault = .malformedEncoding cause := by
  rw [takeTotalDifficulty] at h
  split at h
  · simp at h
  rcases bind_eq_error_iff.mp h with h | ⟨⟨difficulty, rest⟩, -, h⟩
  · exact liftRlp_eq_error_iff.mp h
  · simp at h

/-- Where a payload ends that has all parts before a given one, and nothing else. -/
def EndsBefore (payload : Bytes) : BlockPart → Prop
  | .header => payload = []
  | .transactions => ∃ header, payload = Header.codec.encode header
  | .uncles => ∃ header transactions,
      payload = Header.codec.encode header ++ (Codec.list Transaction.codec).encode transactions

/-- A fault that keeps a payload from being the parts of a block. -/
inductive IsPartsFault (payload : Bytes) : BlockError → Prop where
  | missing {part : BlockPart} (h : EndsBefore payload part) :
    IsPartsFault payload (.missingPart part)
  | malformed {cause : Error} (h : ∀ text, cause ≠ .custom text) :
    IsPartsFault payload (.malformedEncoding cause)

/-- A part is missing where the payload ends in front of it, and else has a fault of its format. -/
theorem isPartsFault_of_takePart {α : Type} {c : Codec α} (hc : c.Standard) {part : BlockPart}
    (hends : rest = [] → EndsBefore payload part) (h : takePart part c rest = .error fault) :
    IsPartsFault payload fault := by
  rcases takePart_eq_error h with ⟨hnil, rfl⟩ | ⟨cause, hdec, rfl⟩
  · exact .missing (hends hnil)
  · exact .malformed fun text htext => hc rest text (htext ▸ hdec)

theorem isPartsFault_of_readParts (h : readParts payload = .error fault) :
    IsPartsFault payload fault := by
  rcases bind_eq_error_iff.mp h with h | ⟨⟨header, rest₁⟩, hheader, h⟩
  · exact isPartsFault_of_takePart Header.codec_standard id h
  obtain rfl := eq_encode_of_takePart Header.codec_lawful hheader
  rcases bind_eq_error_iff.mp h with h | ⟨⟨transactions, rest₂⟩, htransactions, h⟩
  · refine isPartsFault_of_takePart Transaction.codec_standard.list (fun hnil => ?_) h
    exact ⟨header, by rw [hnil, List.append_nil]⟩
  obtain rfl := eq_encode_of_takePart Transaction.codec_lawful.list htransactions
  rcases bind_eq_error_iff.mp h with h | ⟨⟨uncles, rest₃⟩, -, h⟩
  · refine isPartsFault_of_takePart Header.codec_standard.list (fun hnil => ?_) h
    exact ⟨header, transactions, by rw [hnil, List.append_nil]⟩
  rcases bind_eq_error_iff.mp h with h | ⟨⟨difficulty, rest₄⟩, -, h⟩
  · obtain ⟨cause, hdec, rfl⟩ := takeTotalDifficulty_eq_error h
    exact .malformed fun text htext => Codec.uint256_standard _ text (htext ▸ hdec)
  · dsimp only at h
    split at h
    · simp at h
    · obtain rfl := Except.error.inj h
      exact .malformed (by simp)

/-- A part is missing exactly when the payload ends where the part should start. -/
theorem readParts_eq_missingPart_iff {part : BlockPart} (hsize : payload.length < 2 ^ 64) :
    readParts payload = .error (.missingPart part) ↔ EndsBefore payload part := by
  constructor
  · intro h
    cases isPartsFault_of_readParts h with
    | missing hends => exact hends
  · intro h
    cases part with
    | header =>
      obtain rfl : payload = [] := h
      rfl
    | transactions =>
      obtain ⟨header, rfl⟩ := h
      rw [Header.codec_lawful.length_encode] at hsize
      have hheader := takePart_encode Header.codec_lawful .header header [] hsize
      rw [List.append_nil] at hheader
      exact bind_eq_error_iff.mpr
        (.inr ⟨_, hheader, bind_eq_error_iff.mpr (.inl (takePart_nil _ _))⟩)
    | uncles =>
      obtain ⟨header, transactions, rfl⟩ := h
      rw [List.length_append, Header.codec_lawful.length_encode,
        Transaction.codec_lawful.list.length_encode] at hsize
      have hheader := takePart_encode Header.codec_lawful .header header
        ((Codec.list Transaction.codec).encode transactions) (by omega)
      have htransactions :=
        takePart_encode Transaction.codec_lawful.list .transactions transactions [] (by omega)
      rw [List.append_nil] at htransactions
      exact bind_eq_error_iff.mpr (.inr ⟨_, hheader, bind_eq_error_iff.mpr
        (.inr ⟨_, htransactions, bind_eq_error_iff.mpr (.inl (takePart_nil _ _))⟩)⟩)

/-- A fifth part is a payload that is longer than its parts. -/
theorem readParts_append {header : Header} {transactions : List Transaction} {uncles : List Header}
    {difficulty : UInt256} {more : Bytes} (hmore : more ≠ [])
    (hpayload : payload = Header.codec.encode header ++
      ((Codec.list Transaction.codec).encode transactions ++
        ((Codec.list Header.codec).encode uncles ++ (Codec.uint256.encode difficulty ++ more))))
    (hsize : payload.length < 2 ^ 64) :
    readParts payload = .error (.malformedEncoding
      (.listLengthMismatch (payload.length - more.length) payload.length)) := by
  subst hpayload
  have hlen := hsize
  simp only [List.length_append, Header.codec_lawful.length_encode,
    Transaction.codec_lawful.list.length_encode, Header.codec_lawful.list.length_encode,
    Codec.uint256_lawful.length_encode] at hlen
  have hdifficulty : takeTotalDifficulty (Codec.uint256.encode difficulty ++ more) =
      .ok (some difficulty, more) := by
    rw [takeTotalDifficulty, if_neg (by simp [Codec.uint256_lawful.encode_ne_nil difficulty])]
    have hdec := Codec.uint256_lawful.decode_encode difficulty more (by omega)
    exact bind_eq_ok_iff.mpr ⟨_, liftRlp_eq_ok_iff.mpr hdec, rfl⟩
  refine bind_eq_error_iff.mpr
    (.inr ⟨_, takePart_encode Header.codec_lawful .header _ _ (by omega), ?_⟩)
  refine bind_eq_error_iff.mpr
    (.inr ⟨_, takePart_encode Transaction.codec_lawful.list .transactions _ _ (by omega), ?_⟩)
  refine bind_eq_error_iff.mpr
    (.inr ⟨_, takePart_encode Header.codec_lawful.list .uncles _ _ (by omega), ?_⟩)
  refine bind_eq_error_iff.mpr (.inr ⟨_, hdifficulty, ?_⟩)
  dsimp only
  rw [if_neg (by simpa using hmore)]

end

/-! ## The whole -/

/-- Whether a byte string starts with a payload as a list. Heads announce lengths of 64 bits. -/
def StartsWithList (payload bs : Bytes) : Prop :=
  payload.length < 2 ^ 64 ∧ encodeList payload <+: bs

section
variable {bs payload : Bytes} {fault : BlockError}

/-- What is refused has no outer list, or starts with one whose payload is refused. -/
theorem decodeFront_eq_error_iff :
    decodeFront bs = .error fault ↔
      (∃ cause, takePayload .list bs = .error cause ∧ fault = .malformedEncoding cause) ∨
        ∃ payload, StartsWithList payload bs ∧ readParts payload = .error fault := by
  rw [decodeFront_eq, bind_eq_error_iff, liftRlp_eq_error_iff]
  refine or_congr Iff.rfl ⟨?_, ?_⟩
  · rintro ⟨⟨payload, after⟩, htake, h⟩
    obtain ⟨rfl, hsize⟩ := takePayload_eq_ok_iff.mp (liftRlp_eq_ok_iff.mp htake)
    rcases bind_eq_error_iff.mp h with h | ⟨block, -, h⟩
    · exact ⟨payload, ⟨hsize, by rw [encodeItem_list]; exact List.prefix_append _ _⟩, h⟩
    · simp at h
  · rintro ⟨payload, ⟨hsize, after, rfl⟩, h⟩
    refine ⟨(payload, after), liftRlp_eq_ok_iff.mpr ?_, bind_eq_error_iff.mpr (.inl h)⟩
    rw [← encodeItem_list]
    exact takePayload_encodeItem .list after hsize

/-- A reader of the front finds a part missing, or something malformed in the terms of items. -/
theorem decodeFront_fault (h : decodeFront bs = .error fault) :
    (∃ part, fault = .missingPart part) ∨
      ∃ cause, fault = .malformedEncoding cause ∧ ∀ text, cause ≠ .custom text := by
  rcases decodeFront_eq_error_iff.mp h with ⟨cause, htake, rfl⟩ | ⟨payload, -, hparts⟩
  · refine .inr ⟨cause, rfl, fun text htext => ?_⟩
    exact isStandard_takePayload .list bs text (htext ▸ htake)
  · cases isPartsFault_of_readParts hparts with
    | missing => exact .inl ⟨_, rfl⟩
    | malformed hcause => exact .inr ⟨_, rfl, hcause⟩

theorem decodeFront_eq_missingPart_iff {part : BlockPart} :
    decodeFront bs = .error (.missingPart part) ↔
      ∃ payload, StartsWithList payload bs ∧ EndsBefore payload part := by
  rw [decodeFront_eq_error_iff]
  constructor
  · rintro (⟨cause, -, hfault⟩ | ⟨payload, hstarts, hparts⟩)
    · simp at hfault
    · exact ⟨payload, hstarts, (readParts_eq_missingPart_iff hstarts.1).mp hparts⟩
  · rintro ⟨payload, hstarts, hends⟩
    exact .inr ⟨payload, hstarts, (readParts_eq_missingPart_iff hstarts.1).mpr hends⟩

/-- All of a byte string is refused like its front, or because something follows a block. -/
theorem decode_eq_error_iff :
    decode bs = .error fault ↔
      decodeFront bs = .error fault ∨
        ∃ block rest, decodeFront bs = .ok (block, rest) ∧ rest ≠ [] ∧
          fault = .trailingBytes rest.length :=
  whole_eq_error_iff

/-- A fault other than something that follows is one of the front. -/
theorem decode_eq_error_iff_decodeFront (hfault : ∀ n, fault ≠ .trailingBytes n) :
    decode bs = .error fault ↔ decodeFront bs = .error fault := by
  rw [decode_eq_error_iff]
  refine ⟨?_, .inl⟩
  rintro (h | ⟨-, rest, -, -, rfl⟩)
  · exact h
  · exact absurd rfl (hfault _)

theorem decode_eq_missingPart_iff {part : BlockPart} :
    decode bs = .error (.missingPart part) ↔
      ∃ payload, StartsWithList payload bs ∧ EndsBefore payload part := by
  rw [decode_eq_error_iff_decodeFront (by simp), decodeFront_eq_missingPart_iff]

/-- Something follows exactly when the storage form of a block is followed by it. -/
theorem decode_eq_trailingBytes_iff {n : Nat} :
    decode bs = .error (.trailingBytes n) ↔
      ∃ (block : Block) (rest : Bytes), block.storagePayload < 2 ^ 64 ∧
        bs = block.storageBytes ++ rest ∧ rest ≠ [] ∧ n = rest.length := by
  rw [decode_eq_error_iff]
  constructor
  · rintro (h | ⟨block, rest, hfront, hrest, hn⟩)
    · rcases decodeFront_fault h with ⟨part, hpart⟩ | ⟨cause, hcause, -⟩
      · simp at hpart
      · simp at hcause
    · obtain ⟨hbs, hsize, -⟩ := decodeFront_eq_ok_iff.mp hfront
      exact ⟨block, rest, hsize, hbs, hrest, BlockError.trailingBytes.inj hn⟩
  · rintro ⟨block, rest, hsize, rfl, hrest, rfl⟩
    have hfront : decodeFront (block.storageBytes ++ rest) = .ok (block.stored, rest) :=
      decodeFront_eq_ok_iff.mpr ⟨rfl, hsize, rfl⟩
    exact .inr ⟨block.stored, rest, hfront, hrest, rfl⟩

/-- A fault of the payload of the outer list is the fault, whatever follows the list. -/
theorem decode_eq_error_iff_readParts (hstarts : StartsWithList payload bs)
    (hfault : ∀ n, fault ≠ .trailingBytes n) :
    decode bs = .error fault ↔ readParts payload = .error fault := by
  obtain ⟨hsize, rest, rfl⟩ := hstarts
  rw [decode_eq_error_iff_decodeFront hfault, decodeFront_encodeList_eq_error_iff hsize]

/-- Faults of reading mean what they say. A fault is a missing part, something that follows, or
something malformed. A part is missing exactly where the payload of the outer list ends in front of
it, behind the parts before it; something follows exactly where the storage form of a block is
followed by it. A fifth part is a payload that is longer than its parts. What follows the outer list
changes only whether something follows. -/
theorem decode_faults (bs : Bytes) :
    (∀ fault, decode bs = .error fault → fault.isDecodeError ∧
      ((∃ part, fault = .missingPart part) ∨ (∃ n, fault = .trailingBytes n) ∨
        ∃ cause, fault = .malformedEncoding cause)) ∧
    (decode bs = .error (.missingPart .header) ↔ StartsWithList [] bs) ∧
    (decode bs = .error (.missingPart .transactions) ↔
      ∃ header, StartsWithList (Header.codec.encode header) bs) ∧
    (decode bs = .error (.missingPart .uncles) ↔
      ∃ header transactions, StartsWithList
        (Header.codec.encode header ++ (Codec.list Transaction.codec).encode transactions) bs) ∧
    (∀ n, decode bs = .error (.trailingBytes n) ↔
      ∃ (block : Block) (rest : Bytes), block.storagePayload < 2 ^ 64 ∧
        bs = block.storageBytes ++ rest ∧ rest ≠ [] ∧ n = rest.length) ∧
    (∀ header transactions uncles difficulty more, more ≠ [] →
      let payload := Header.codec.encode header ++
        ((Codec.list Transaction.codec).encode transactions ++
          ((Codec.list Header.codec).encode uncles ++ (Codec.uint256.encode difficulty ++ more)))
      StartsWithList payload bs →
        decode bs = .error (.malformedEncoding
          (.listLengthMismatch (payload.length - more.length) payload.length))) ∧
    ∀ payload rest fault, StartsWithList payload bs → (∀ n, fault ≠ .trailingBytes n) →
      (decode bs = .error fault ↔ decode (encodeList payload ++ rest) = .error fault) := by
  refine ⟨fun fault h => ?_, ?_, ?_, ?_, fun n => decode_eq_trailingBytes_iff, ?_, ?_⟩
  · rcases decode_eq_error_iff.mp h with h | ⟨-, rest, -, -, rfl⟩
    · rcases decodeFront_fault h with ⟨part, rfl⟩ | ⟨cause, rfl, -⟩
      · exact ⟨rfl, .inl ⟨part, rfl⟩⟩
      · exact ⟨rfl, .inr (.inr ⟨cause, rfl⟩)⟩
    · exact ⟨rfl, .inr (.inl ⟨_, rfl⟩)⟩
  · rw [decode_eq_missingPart_iff]
    exact ⟨fun ⟨_, hstarts, hends⟩ => hends ▸ hstarts, fun hstarts => ⟨[], hstarts, rfl⟩⟩
  · rw [decode_eq_missingPart_iff]
    exact ⟨fun ⟨_, hstarts, header, hends⟩ => ⟨header, hends ▸ hstarts⟩,
      fun ⟨header, hstarts⟩ => ⟨_, hstarts, header, rfl⟩⟩
  · rw [decode_eq_missingPart_iff]
    exact ⟨fun ⟨_, hstarts, header, transactions, hends⟩ =>
        ⟨header, transactions, hends ▸ hstarts⟩,
      fun ⟨header, transactions, hstarts⟩ => ⟨_, hstarts, header, transactions, rfl⟩⟩
  · intro header transactions uncles difficulty more hmore payload hstarts
    exact (decode_eq_error_iff_readParts hstarts (by simp)).mpr
      (readParts_append hmore rfl hstarts.1)
  · intro payload rest fault hstarts hfault
    rw [decode_eq_error_iff_readParts hstarts hfault,
      decode_eq_error_iff_readParts ⟨hstarts.1, List.prefix_append _ _⟩ hfault]

end

/-- The small block with a fifth part and something behind the outer list, which is wrong in two
ways: the fifth part is the fault, whatever stands behind it. -/
theorem decode_faults_fifthPart :
    let payload := smallBlock.storageBody ++ [0x05]
    let fault := BlockError.malformedEncoding
      (.listLengthMismatch (payload.length - 1) payload.length)
    StartsWithList payload (encodeList payload ++ [0xc0]) ∧
      decode (encodeList payload ++ [0xc0]) = .error fault ∧ fault.isDecodeError ∧
      ∀ rest, decode (encodeList payload ++ rest) = .error fault := by
  intro payload fault
  have hsize : payload.length < 2 ^ 64 := by decide +kernel
  have hstarts : StartsWithList payload (encodeList payload ++ [0xc0]) :=
    ⟨hsize, List.prefix_append _ _⟩
  obtain ⟨hfaults, -, -, -, -, hfifth, hfollows⟩ := decode_faults (encodeList payload ++ [0xc0])
  have hpayload : payload = Header.codec.encode smallBlock.header ++
      ((Codec.list Transaction.codec).encode smallBlock.transactions ++
        ((Codec.list Header.codec).encode smallBlock.uncles ++
          (Codec.uint256.encode 0 ++ [0x05]))) := by decide +kernel
  have hdecode := hfifth smallBlock.header smallBlock.transactions smallBlock.uncles 0 [0x05]
    (by decide)
  rw [← hpayload] at hdecode
  have hfault := hdecode hstarts
  exact ⟨hstarts, hfault, (hfaults _ hfault).1,
    fun rest => (hfollows payload rest _ hstarts (by simp)).mp hfault⟩

end Ethereum.Block
