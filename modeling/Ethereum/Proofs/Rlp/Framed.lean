import Ethereum.Proofs.Rlp.HeadFault
import Ethereum.Proofs.Rlp.Record

/-!
# Items that are cut short

A head that is refused for another reason than a missing byte is refused whatever follows, and a
head that is read is read whatever follows. So an item that is cut anywhere can only be refused for
being too short: more bytes turn it into an item that is read. The cut may be inside of the head,
inside of the length that a long head holds, or in front of a byte that is its own head.

A format is framed when its values are single items that are read by their heads first. All formats
but sequences of fields are, and each tells a value that is cut short.

## Main statements

* `Head.decode_append_of_ok` — what more bytes do to a head that is read.
* `Codec.Framed.decode_of_isPrefix` — a value that is cut short is too short.
-/

namespace Ethereum.Rlp

/-! ## More bytes behind a head -/

/-- A head that is read is read whatever follows. -/
theorem Head.decode_append_of_ok {bs body : Bytes} {head : Head} (h : decode bs = .ok (head, body))
    (more : Bytes) : decode (bs ++ more) = .ok (head, body ++ more) := by
  obtain ⟨hbs, hlen, hsize⟩ := decode_eq_ok_iff.mp h
  refine decode_eq_ok_iff.mpr ⟨?_, by rw [List.length_append]; omega, hsize⟩
  rw [List.take_append_of_le_length hlen, ← List.append_assoc, ← hbs]

/-- An item that is cut short is refused as such, wherever it is cut. -/
theorem Head.decode_of_isPrefix {kind : ItemKind} {payload cut : Bytes}
    (hsize : payload.length < 2 ^ 64) (hcut : cut <+: encodeItem kind payload)
    (hne : cut ≠ encodeItem kind payload) : decode cut = .error .inputTooShort := by
  obtain ⟨more, hmore⟩ := hcut
  have hitem := decode_encodeItem kind [] hsize
  rw [List.append_nil, List.append_nil, ← hmore] at hitem
  cases hdec : decode cut with
  | error e =>
    by_contra he
    rw [decode_append_of_error hdec (by simpa using he)] at hitem
    simp at hitem
  | ok result =>
    -- the payload would be complete in front of the cut
    obtain ⟨head, body⟩ := result
    obtain ⟨-, hlen, -⟩ := decode_eq_ok_iff.mp hdec
    rw [decode_append_of_ok hdec, Except.ok.injEq, Prod.mk.injEq] at hitem
    obtain ⟨rfl, rfl⟩ := hitem
    dsimp only at hlen
    rw [List.length_append] at hlen
    obtain rfl : more = [] := List.eq_nil_of_length_eq_zero (by omega)
    exact absurd (by rw [← hmore, List.append_nil]) hne

/-! ## Formats of single items -/

theorem takePayload_eq_error {kind : ItemKind} {bs : Bytes} {e : Error}
    (h : Head.decode bs = .error e) : takePayload kind bs = .error e :=
  bind_eq_error_iff.mpr (.inl h)

namespace Codec

variable {α : Type} {c : Codec α}

/-- Whether the values of a format are single items, each read by its head first. -/
structure Framed (c : Codec α) : Prop where
  exists_encode_eq (a : α) : ∃ kind payload, c.encode a = encodeItem kind payload
  decode_eq_error {bs : Bytes} {e : Error} : Head.decode bs = .error e → c.decode bs = .error e

/-- A value that is cut short is refused as such, wherever it is cut. -/
theorem Framed.decode_of_isPrefix (hc : c.Framed) {a : α} {cut : Bytes}
    (hlen : (c.encode a).length < 2 ^ 64) (hcut : cut <+: c.encode a) (hne : cut ≠ c.encode a) :
    c.decode cut = .error .inputTooShort := by
  obtain ⟨kind, payload, hitem⟩ := hc.exists_encode_eq a
  rw [hitem] at hlen hcut hne
  have hsize := length_le_length_encodeItem kind payload
  exact hc.decode_eq_error (Head.decode_of_isPrefix (by omega) hcut hne)

theorem exists_encodeString_eq (bs : Bytes) :
    ∃ kind payload, encodeString bs = encodeItem kind payload :=
  ⟨.string, bs, (encodeItem_string bs).symm⟩

theorem bytes_framed : bytes.Framed where
  exists_encode_eq := exists_encodeString_eq
  decode_eq_error := takePayload_eq_error

theorem fixed_framed (n : Nat) : (fixed n).Framed where
  exists_encode_eq bs := exists_encodeString_eq bs.toBytes
  decode_eq_error h := bind_eq_error_iff.mpr (.inl (takePayload_eq_error h))

theorem uint64_framed : uint64.Framed where
  exists_encode_eq n := exists_encodeString_eq (Bytes.ofNat n.toNat)
  decode_eq_error h := bind_eq_error_iff.mpr (.inl (takePayload_eq_error h))

theorem uint256_framed : uint256.Framed where
  exists_encode_eq n := exists_encodeString_eq (Bytes.ofNat n.toNat)
  decode_eq_error h := bind_eq_error_iff.mpr (.inl (takePayload_eq_error h))

theorem recipient_framed : recipient.Framed where
  exists_encode_eq
    | none => exists_encodeString_eq []
    | some address => (fixed_framed 20).exists_encode_eq address
  decode_eq_error {bs e} h := by
    cases bs with
    | nil =>
      obtain rfl : Error.inputTooShort = e := Except.error.inj h
      rfl
    | cons b bs =>
      -- the byte that stands for no address is a head that is never refused
      have hb : b ≠ 0x80 := by
        rintro rfl
        have hread : Head.decode (0x80 :: bs) = .ok (⟨.string, 0⟩, bs) :=
          @Head.decode_encodeItem .string [] bs (by decide)
        rw [hread] at h
        simp at h
      rw [decode_recipient_cons hb]
      exact bind_eq_error_iff.mpr (.inl ((fixed_framed 20).decode_eq_error h))

theorem record_framed (hc : c.Lawful) : (Codec.record c).Framed where
  exists_encode_eq v := ⟨_, _, hc.encode_record v⟩
  decode_eq_error h := bind_eq_error_iff.mpr (.inl h)

theorem list_framed (hc : c.Lawful) : (Codec.list c).Framed where
  exists_encode_eq items := ⟨_, _, hc.encode_list items⟩
  decode_eq_error h := bind_eq_error_iff.mpr (.inl (takePayload_eq_error h))

end Codec

end Ethereum.Rlp
