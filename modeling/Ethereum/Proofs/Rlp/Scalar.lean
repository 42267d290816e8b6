import Ethereum.Proofs.Rlp.Lawful

/-!
# Strings and integers are lawful

The formats of single items obey the laws of `Codec.Lawful`. For an integer this says that its
minimal bytes are the only string that is read as it: wider strings and strings that start with a
zero byte are refused.
-/

namespace Ethereum.Rlp.Codec

/-- Byte strings of any length. -/
theorem bytes_lawful : bytes.Lawful where
  length_encode := length_encodeString
  encode_ne_nil bs := by
    show encodeString bs ≠ []
    rw [← encodeItem_string]
    exact encodeItem_ne_nil _ _
  decode_encode bs rest hlen := by
    have hbs : bs.length < 2 ^ 64 := by
      have hle := length_le_length_encodeString bs
      rw [length_encodeString] at hle
      exact Nat.lt_of_le_of_lt hle hlen
    exact takePayload_eq_ok_iff.mpr ⟨by rw [encodeItem_string]; rfl, hbs⟩
  eq_encode_of_decode {input rest bs} h := by
    obtain ⟨rfl, -⟩ := takePayload_eq_ok_iff.mp h
    rw [encodeItem_string]
    rfl

/-! ## Fixed strings -/

theorem ofBytes?_eq_some_iff {n : Nat} {bs : Bytes} {value : FixedBytes n} :
    FixedBytes.ofBytes? n bs = some value ↔ bs = value.toBytes := by
  obtain ⟨own, hown⟩ := value
  rw [FixedBytes.ofBytes?]
  split
  · simp
  · next h => simpa using fun heq : bs = own => h (heq ▸ hown)

/-- Byte strings of one length. -/
theorem fixed_lawful (n : Nat) : (fixed n).Lawful where
  length_encode value := length_encodeString value.toBytes
  encode_ne_nil value := bytes_lawful.encode_ne_nil value.toBytes
  decode_encode value rest hlen := by
    refine bind_eq_ok_iff.mpr ⟨_, bytes_lawful.decode_encode value.toBytes rest hlen, ?_⟩
    dsimp only
    rw [ofBytes?_eq_some_iff.mpr rfl]
  eq_encode_of_decode {input rest value} h := by
    obtain ⟨⟨payload, rest'⟩, htake, h⟩ := bind_eq_ok_iff.mp h
    dsimp only at h
    split at h
    · next own hown =>
      obtain ⟨rfl, rfl⟩ := Prod.mk.inj (Except.ok.inj h)
      obtain rfl := ofBytes?_eq_some_iff.mp hown
      exact bytes_lawful.eq_encode_of_decode htake
    · simp at h

/-- Every string of one length other than a single byte has a head. -/
theorem length_fixed {n : Nat} (hn : n ≠ 1) (value : FixedBytes n) :
    (fixed n).length value = Head.size n + n := by
  have hown : isOwnHead value.toBytes = false :=
    isOwnHead_of_length_ne (by rw [value.length_toBytes]; exact hn)
  show stringSize value.toBytes = _
  rw [stringSize, if_neg (by simp [hown]), value.length_toBytes]

/-! ## Integers -/

theorem hasLeadingZero_eq_false_iff {bs : Bytes} :
    hasLeadingZero bs = false ↔ bs.head? ≠ some 0 := by
  simp [hasLeadingZero]

/-- The minimal form of a number is its own head exactly when the number is small and not zero. -/
theorem isOwnHead_ofNat_iff {n : Nat} : isOwnHead (Bytes.ofNat n) = true ↔ 0 < n ∧ n < 0x80 := by
  rw [isOwnHead_iff]
  constructor
  · rintro ⟨b, hb, hsmall⟩
    have hn : b.toNat = n := by simpa [hb, Bytes.toNat] using Bytes.toNat_ofNat n
    have hzero := Bytes.head?_ofNat_ne_zero n
    rw [hb, List.head?_cons] at hzero
    have hpos : b.toNat ≠ 0 := fun h0 => hzero (congrArg some (UInt8.toNat_inj.mp h0))
    rw [UInt8.lt_iff_toNat_lt] at hsmall
    exact ⟨by omega, by simpa [← hn] using hsmall⟩
  · rintro ⟨hpos, hsmall⟩
    have hcount : Bytes.byteCount n = 1 := by
      have hle : Bytes.byteCount n ≤ 1 := Bytes.byteCount_le (by omega)
      have hpos' := Bytes.byteCount_pos hpos
      omega
    refine ⟨UInt8.ofNat n, ?_, ?_⟩
    · rw [Bytes.ofNat, hcount]
      rfl
    · rw [UInt8.lt_iff_toNat_lt, toNat_ofNat_of_lt (by omega)]
      exact hsmall

/-- A number takes the bytes that are announced for it. -/
theorem length_encodeNat (n : Nat) : (encodeNat n).length = natSize n := by
  rw [encodeNat, length_encodeString, stringSize, natSize, Bytes.length_ofNat]
  by_cases hown : isOwnHead (Bytes.ofNat n) = true
  · rw [if_pos hown, if_pos (isOwnHead_ofNat_iff.mp hown).2]
  · rw [if_neg hown]
    by_cases hsmall : n < 0x80
    · -- only zero is small and still has a head
      have hzero : n = 0 := by
        by_contra hpos
        exact hown (isOwnHead_ofNat_iff.mpr ⟨by omega, hsmall⟩)
      subst hzero
      rfl
    · rw [if_neg hsmall]

/-- A number of `k` bytes is read back from its minimal form. -/
theorem takePayload_encodeNat {n k : Nat} (h : n < 256 ^ k) (hk : k < 2 ^ 64) (rest : Bytes) :
    takePayload .string (encodeNat n ++ rest) = .ok (Bytes.ofNat n, rest) := by
  have hle := Bytes.byteCount_le h
  rw [takePayload_eq_ok_iff, encodeItem_string, encodeNat]
  exact ⟨rfl, by rw [Bytes.length_ofNat]; omega⟩

/-- A string without a leading zero byte is the minimal form of the number that it writes. -/
theorem eq_encodeNat_of_takePayload {bs payload rest : Bytes}
    (h : takePayload .string bs = .ok (payload, rest)) (hzero : hasLeadingZero payload = false) :
    bs = encodeNat (Bytes.toNat payload) ++ rest := by
  obtain ⟨rfl, -⟩ := takePayload_eq_ok_iff.mp h
  rw [encodeNat, Bytes.ofNat_toNat (hasLeadingZero_eq_false_iff.mp hzero), encodeItem_string]

theorem encodeNat_ne_nil (n : Nat) : encodeNat n ≠ [] := bytes_lawful.encode_ne_nil _

theorem encodeNat_inj {m n : Nat} (h : encodeNat m = encodeNat n) : m = n := by
  have hbytes := congrArg Bytes.toNat (encodeString_inj h)
  rw [Bytes.toNat_ofNat, Bytes.toNat_ofNat] at hbytes
  exact hbytes

/-- Integers of 64 bits. -/
theorem uint64_lawful : uint64.Lawful where
  length_encode n := length_encodeNat n.toNat
  encode_ne_nil n := encodeNat_ne_nil n.toNat
  decode_encode n rest _ := by
    have hn : n.toNat < 256 ^ 8 := n.toNat_lt
    have hle := Bytes.byteCount_le hn
    refine bind_eq_ok_iff.mpr ⟨_, takePayload_encodeNat hn (by omega) rest, ?_⟩
    dsimp only
    rw [if_neg (by rw [Bytes.length_ofNat]; omega),
      if_neg (by simp [hasLeadingZero_eq_false_iff.mpr (Bytes.head?_ofNat_ne_zero n.toNat)]),
      Bytes.toNat_ofNat, UInt64.ofNat_toNat]
  eq_encode_of_decode {bs rest n} h := by
    obtain ⟨⟨payload, rest'⟩, htake, h⟩ := bind_eq_ok_iff.mp h
    dsimp only at h
    split at h
    · simp at h
    next hwide =>
    split at h
    · simp at h
    next hzero =>
    obtain ⟨rfl, rfl⟩ := Prod.mk.inj (Except.ok.inj h)
    have hlt : Bytes.toNat payload < 256 ^ 8 := Bytes.toNat_lt_pow_of_length_le (by omega)
    show bs = encodeNat (UInt64.ofNat (Bytes.toNat payload)).toNat ++ rest'
    rw [UInt64.toNat_ofNat', Nat.mod_eq_of_lt (by omega)]
    exact eq_encodeNat_of_takePayload htake (by simpa using hzero)

/-- Integers of 256 bits. -/
theorem uint256_lawful : uint256.Lawful where
  length_encode n := length_encodeNat n.toNat
  encode_ne_nil n := encodeNat_ne_nil n.toNat
  decode_encode n rest _ := by
    have hn : n.toNat < 256 ^ 32 := n.isLt
    have hle := Bytes.byteCount_le hn
    refine bind_eq_ok_iff.mpr ⟨_, takePayload_encodeNat hn (by omega) rest, ?_⟩
    dsimp only
    rw [if_neg (by simp [hasLeadingZero_eq_false_iff.mpr (Bytes.head?_ofNat_ne_zero n.toNat)]),
      if_neg (by rw [Bytes.length_ofNat]; omega), Bytes.toNat_ofNat, BitVec.ofNat_toNat,
      BitVec.setWidth_eq]
  eq_encode_of_decode {bs rest n} h := by
    obtain ⟨⟨payload, rest'⟩, htake, h⟩ := bind_eq_ok_iff.mp h
    dsimp only at h
    split at h
    · simp at h
    next hzero =>
    split at h
    · simp at h
    next hwide =>
    obtain ⟨rfl, rfl⟩ := Prod.mk.inj (Except.ok.inj h)
    have hlt : Bytes.toNat payload < 256 ^ 32 := Bytes.toNat_lt_pow_of_length_le (by omega)
    show bs = encodeNat (BitVec.ofNat 256 (Bytes.toNat payload)).toNat ++ rest'
    rw [BitVec.toNat_ofNat, Nat.mod_eq_of_lt (by omega)]
    exact eq_encodeNat_of_takePayload htake (by simpa using hzero)

/-! ## Recipients -/

/-- The encoding of an address does not start like the encoding of no address. -/
theorem encode_address (address : Address) :
    (fixed 20).encode address = 0x94 :: address.toBytes := by
  have hown : isOwnHead address.toBytes = false :=
    isOwnHead_of_length_ne (by rw [address.length_toBytes]; decide)
  show encodeString address.toBytes = _
  rw [encodeString, if_neg (by simp [hown]), address.length_toBytes]
  rfl

/-- Only the byte `0x80` stands for no address. -/
theorem decode_recipient_cons {b : UInt8} (h : b ≠ 0x80) (bs : Bytes) :
    recipient.decode (b :: bs) = (do
      let (address, rest) ← (fixed 20).decode (b :: bs)
      .ok (some address, rest)) := by
  show (if b = 0x80 then Except.ok (none, bs) else _) = _
  rw [if_neg h]

/-- An account, or none. -/
theorem recipient_lawful : recipient.Lawful where
  length_encode
    | none => rfl
    | some address => (fixed_lawful 20).length_encode address
  encode_ne_nil
    | none => by simp [recipient, encodeString, isOwnHead, Head.encode]
    | some address => (fixed_lawful 20).encode_ne_nil address
  decode_encode
    | none, rest, _ => rfl
    | some address, rest, hlen => by
      have hdec := (fixed_lawful 20).decode_encode address rest hlen
      show recipient.decode ((fixed 20).encode address ++ rest) = _
      rw [encode_address, List.cons_append] at hdec ⊢
      rw [decode_recipient_cons (by decide)]
      exact bind_eq_ok_iff.mpr ⟨_, hdec, rfl⟩
  eq_encode_of_decode {bs rest value} h := by
    cases bs with
    | nil => simp [recipient] at h
    | cons b bs =>
      by_cases hb : b = 0x80
      · subst hb
        obtain ⟨rfl, rfl⟩ := Prod.mk.inj (Except.ok.inj h)
        rfl
      · rw [decode_recipient_cons hb] at h
        obtain ⟨⟨address, rest'⟩, hdec, h⟩ := bind_eq_ok_iff.mp h
        obtain ⟨rfl, rfl⟩ := Prod.mk.inj (Except.ok.inj h)
        exact (fixed_lawful 20).eq_encode_of_decode hdec

end Ethereum.Rlp.Codec
