import Ethereum.Proofs.Block.Fault

/-!
# Blocks among other values

A block is read in two ways: as all there is of a byte string, and as one value among others, where
the bytes of the next value follow at once. Both take either form, and they agree on every byte
string, up to a missing part, which is an input that is too short for a reader of values. So a list
may hold blocks in both forms side by side: the optional fourth part of a block ends with the list
that it is in, and is never looked for in the bytes of the next block.

## Main statements

* `decodeExact_codec` — one reader is the other, up to the fault of a missing part.
* `reads_of_isForm` — each form of a block is read, whatever follows.
* `readers_agree_and_mix` — the two readers agree, and a list may hold either form.
-/

namespace Ethereum

open Rlp

/-- A fault of a block as the fault of one value among others, where a missing part is an input that
is too short. -/
def BlockError.asElement : BlockError → BlockError
  | .missingPart _ => .malformedEncoding .inputTooShort
  | fault => fault

namespace Block

variable {bs form : Bytes} {block next : Block} {fault : BlockError}

/-! ## The two readers -/

/-- What the reader of values makes of a fault. It never falls back on words of its own. -/
theorem decode_codec_of_error (h : decodeFront bs = .error fault) :
    ∃ cause, codec.decode bs = .error cause ∧ fault.asElement = .malformedEncoding cause ∧
      ∀ text, cause ≠ .custom text := by
  rcases decodeFront_fault h with ⟨part, rfl⟩ | ⟨cause, rfl, hcause⟩
  · exact ⟨.inputTooShort, by simp only [codec, h], rfl, by simp⟩
  · exact ⟨cause, by simp only [codec, h], rfl, hcause⟩

theorem decode_codec_eq_ok_iff {result : Block × Bytes} :
    codec.decode bs = .ok result ↔ decodeFront bs = .ok result := by
  cases h : decodeFront bs with
  | ok own => simp [codec, h]
  | error fault =>
    obtain ⟨cause, hcodec, -⟩ := decode_codec_of_error h
    simp [hcodec]

theorem liftRlp_decode_codec (bs : Bytes) :
    liftRlp (codec.decode bs) = (decodeFront bs).mapError BlockError.asElement := by
  cases h : decodeFront bs with
  | error fault =>
    obtain ⟨cause, hcodec, hcause, -⟩ := decode_codec_of_error h
    rw [hcodec, Except.mapError, hcause]
    rfl
  | ok result =>
    rw [decode_codec_eq_ok_iff.mpr h]
    rfl

/-- As all there is, a block among other values is read like a block, up to the fault of a missing
part. -/
theorem decodeExact_codec (bs : Bytes) :
    codec.decodeExact bs = (decode bs).mapError BlockError.asElement := by
  have hread : (fun bs => liftRlp (codec.decode bs)) = fun bs =>
      (decodeFront bs).mapError BlockError.asElement := funext liftRlp_decode_codec
  rw [Codec.decodeExact, decode, hread, whole, whole]
  cases decodeFront bs with
  | error fault => rfl
  | ok result =>
    -- what follows is counted by both, and that fault keeps its name
    show (if result.2.isEmpty then _ else _) = Except.mapError _ (if result.2.isEmpty then _ else _)
    split <;> rfl

/-! ## Lists of blocks in either form -/

/-- Whether a byte string is one of the two forms of a block. -/
def IsForm (form : Bytes) (block : Block) : Prop :=
  form = block.networkBytes ∨ form = block.storageBytes

/-- Each form of a block is read, whatever follows, as what the form keeps of the block. -/
theorem reads_of_isForm (hform : IsForm form block) (hlen : form.length < 2 ^ 64) :
    ∃ next, codec.Reads form next ∧ decode form = .ok next ∧
      next.networkBytes = block.networkBytes := by
  obtain ⟨kept, rfl, hnetwork⟩ : ∃ kept : Block,
      form = kept.storageBytes ∧ kept.networkBytes = block.networkBytes := by
    rcases hform with rfl | rfl
    · exact ⟨block.sent, block.networkBytes_eq, rfl⟩
    · exact ⟨block, rfl, rfl⟩
  have hsize := Nat.lt_of_le_of_lt kept.storagePayload_le hlen
  refine ⟨kept.stored, ⟨?_, fun rest => ?_⟩, decode_storageBytes kept hsize, hnetwork⟩
  · rw [storageBytes_eq]
    exact encodeItem_ne_nil _ _
  · exact decode_codec_eq_ok_iff.mpr (decodeFront_eq_ok_iff.mpr ⟨rfl, hsize, rfl⟩)

/-- Every form in a row of forms is read as a block, which has the same network form. -/
theorem exists_reads_of_forall₂ {forms : List Bytes} {blocks : List Block}
    (hforms : List.Forall₂ IsForm forms blocks) (hlen : forms.flatten.length < 2 ^ 64) :
    ∃ read, List.Forall₂ codec.Reads forms read ∧
      List.Forall₂ (fun form next => decode form = .ok next) forms read ∧
      read.flatMap networkBytes = blocks.flatMap networkBytes := by
  induction hforms with
  | nil => exact ⟨[], .nil, .nil, rfl⟩
  | cons hfirst _ ih =>
    rw [List.flatten_cons, List.length_append] at hlen
    obtain ⟨read, hreads, hdecodes, hnetwork⟩ := ih (by omega)
    obtain ⟨next, hnext, hdecode, hsame⟩ := reads_of_isForm hfirst (by omega)
    refine ⟨next :: read, .cons hnext hreads, .cons hdecode hdecodes, ?_⟩
    rw [List.flatMap_cons, List.flatMap_cons, hnetwork, hsame]

/-- The two readers of blocks agree on every byte string: they give the same block, or the same
fault, up to a missing part, which is an input that is too short among other values; and no fault is
ever worded anew. In a list each block may stand in either form: the list is read as the blocks that
its forms are read as one by one, and written again in network form throughout. -/
theorem readers_agree_and_mix :
    (∀ bs : Bytes,
      codec.decodeExact bs = (decode bs).mapError BlockError.asElement ∧
        (∀ fault, decode bs = .error fault → fault.isDecodeError) ∧
        ∀ text, codec.decode bs ≠ .error (.custom text)) ∧
    ∀ (forms : List Bytes) (blocks : List Block), List.Forall₂ IsForm forms blocks →
      forms.flatten.length < 2 ^ 64 →
        ∃ read, List.Forall₂ (fun form block => decode form = .ok block) forms read ∧
          (Codec.list codec).decodeExact (encodeList forms.flatten) = .ok read ∧
          (Codec.list codec).encode read = encodeList (blocks.flatMap networkBytes) := by
  refine ⟨fun bs => ⟨decodeExact_codec bs, fun fault h => ?_, fun text h => ?_⟩, ?_⟩
  · rcases decode_eq_error_iff.mp h with h | ⟨-, rest, -, -, rfl⟩
    · rcases decodeFront_fault h with ⟨part, rfl⟩ | ⟨cause, rfl, -⟩
      · rfl
      · rfl
    · rfl
  · cases hfront : decodeFront bs with
    | ok result =>
      rw [decode_codec_eq_ok_iff.mpr hfront] at h
      simp at h
    | error fault =>
      obtain ⟨cause, hcodec, -, hcause⟩ := decode_codec_of_error hfront
      exact hcause text (Except.error.inj (hcodec.symm.trans h))
  · intro forms blocks hforms hlen
    obtain ⟨read, hreads, hdecodes, hnetwork⟩ := exists_reads_of_forall₂ hforms hlen
    refine ⟨read, hdecodes, ?_, ?_⟩
    · have hlist := (Codec.Reads.list hreads hlen).2 []
      rw [List.append_nil, encodeItem_list] at hlist
      exact Codec.decodeExact_eq_ok_iff.mpr hlist
    · rw [Codec.encode_list_of_length_encode length_networkBytes, encodeItem_list, ← hnetwork]
      rfl

/-- The small block in storage form, and in network form right behind it, are read as two blocks of
which only the first has a total difficulty. The empty list lacks every part of a block, which is an
input that is too short among other values. -/
theorem readers_agree_and_mix_smallBlock :
    (Codec.list codec).decodeExact
        (encodeList (smallBlock.storageBytes ++ smallBlock.networkBytes)) =
      .ok [smallBlock, smallBlock.sent] ∧
    decode [0xc0] = .error (.missingPart .header) ∧
    codec.decodeExact [0xc0] = .error (.malformedEncoding .inputTooShort) := by
  have hstorage : decode smallBlock.storageBytes = .ok smallBlock := by decide +kernel
  have hnetwork : decode smallBlock.networkBytes = .ok smallBlock.sent := by decide +kernel
  have hempty : decode [0xc0] = .error (.missingPart .header) := by decide +kernel
  obtain ⟨hagree, hmix⟩ := readers_agree_and_mix
  have hforms : List.Forall₂ IsForm [smallBlock.storageBytes, smallBlock.networkBytes]
      [smallBlock, smallBlock] := .cons (.inr rfl) (.cons (.inl rfl) .nil)
  obtain ⟨read, hdecodes, hlist, -⟩ := hmix _ _ hforms (by decide +kernel)
  rw [List.flatten_cons, List.flatten_cons, List.flatten_nil, List.append_nil] at hlist
  refine ⟨?_, hempty, ?_⟩
  · obtain ⟨first, rest, hfirst, hrest, rfl⟩ := List.forall₂_cons_left_iff.mp hdecodes
    obtain ⟨second, last, hsecond, hlast, rfl⟩ := List.forall₂_cons_left_iff.mp hrest
    obtain rfl := List.forall₂_nil_left_iff.mp hlast
    rw [hstorage, Except.ok.injEq] at hfirst
    rw [hnetwork, Except.ok.injEq] at hsecond
    rw [hlist, ← hfirst, ← hsecond]
  · rw [(hagree _).1, hempty]
    rfl

end Block

end Ethereum
