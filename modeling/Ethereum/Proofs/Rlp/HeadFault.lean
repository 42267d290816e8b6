import Ethereum.Proofs.Rlp.Head

/-!
# Why a head is refused

A byte string that does not start with a head and its payload is not minimal, which is found before
the payload is looked at, or ends inside of its head or of its payload. `Head.decode` does nothing
before it goes on with one of the four forms, so the faults of a head are those of the forms, each
of which is an equivalence of its own.

A head that is not minimal is so whatever follows it. Only a head or a payload that is cut short can
become one that is read.

## Main statements

* `Head.decode_eq_error_iff` — the faults of a head, by the byte strings that have them.
* `Head.decode_append_of_error` — what more bytes do to a head that is refused.
-/

namespace Ethereum.Rlp

/-- Why a byte string does not start with a head and the payload that the head announces. -/
inductive HeadFault : Bytes → Error → Prop where
  /-- The length starts with a zero byte, whatever follows it. -/
  | leadingZero {kind : ItemKind} {first : UInt8} {length : Bytes} (body : Bytes)
    (hfirst : CountsLength kind length.length first) (hzero : length.head? = some 0) :
    HeadFault (first :: (length ++ body)) .leadingZero
  /-- The length is one that the first byte could announce alone, whatever follows it. -/
  | nonCanonicalSize {kind : ItemKind} {first : UInt8} {length : Bytes} (body : Bytes)
    (hfirst : CountsLength kind length.length first) (hzero : length.head? ≠ some 0)
    (hsmall : Bytes.toNat length < 56) :
    HeadFault (first :: (length ++ body)) .nonCanonicalSize
  /-- A byte that is its own head has another one in front of it. -/
  | nonCanonicalSingleByte {b : UInt8} (body : Bytes) (hb : b < 0x80) :
    HeadFault (0x81 :: b :: body) .nonCanonicalSingleByte
  /-- There is no first byte. -/
  | noHead : HeadFault [] .inputTooShort
  /-- The head ends before its length does. -/
  | cutHead {kind : ItemKind} {count : Nat} {first : UInt8} {length : Bytes}
    (hfirst : CountsLength kind count first) (hcut : length.length < count) :
    HeadFault (first :: length) .inputTooShort
  /-- The head is minimal, and announces more bytes than there are. -/
  | cutPayload {kind : ItemKind} {n : Nat} {body : Bytes} (hsize : n < 2 ^ 64)
    (hcut : body.length < n) : HeadFault ((Head.mk kind n).encode ++ body) .inputTooShort

section
variable {kind : ItemKind} {n count : Nat} {first : UInt8} {bs rest : Bytes} {e : Error}

/-! ## The faults of each form -/

/-- A payload is refused exactly when it is not all there. -/
theorem Head.checkPayload_eq_error_iff {head : Head} :
    checkPayload head bs = .error e ↔ e = .inputTooShort ∧ bs.length < head.payload := by
  rw [checkPayload]
  split
  · next h =>
    have hle := Bytes.hasAtLeast_iff.mp h
    exact iff_of_false (by simp) (by omega)
  · next h =>
    have hlt : bs.length < head.payload := by
      rw [Bytes.hasAtLeast_iff] at h
      omega
    simp [hlt, eq_comm]

/-- A short string is refused when it is a byte with a head too much, or not all there. -/
theorem Head.decodeShortString_eq_error_iff :
    decodeShortString n bs = .error e ↔
      (n = 1 ∧ e = .nonCanonicalSingleByte ∧ ∃ b rest, bs = b :: rest ∧ b < 0x80) ∨
        e = .inputTooShort ∧ bs.length < n := by
  unfold decodeShortString
  split
  · next hn =>
    subst hn
    cases bs with
    | nil => simp [eq_comm]
    | cons b rest =>
      dsimp only
      split
      · next hb => simp [hb, eq_comm]
      · next hb =>
        rw [checkPayload_eq_error_iff]
        simp [hb]
  · next hn =>
    rw [checkPayload_eq_error_iff]
    simp [hn]

/-- A long head that ends before its length does is refused as such. -/
theorem Head.decodeLong_of_length_lt (h : bs.length < count) :
    decodeLong kind count bs = .error .inputTooShort := by
  have hmissing : Bytes.hasAtLeast count bs = false := by
    rw [← Bool.not_eq_true, Bytes.hasAtLeast_iff]
    omega
  rw [decodeLong, if_pos (by simp [hmissing])]

/-- A long head is checked for its length first, and for the payload behind it last. -/
theorem Head.decodeLong_append {length : Bytes} (hpos : 0 < length.length) (body : Bytes) :
    decodeLong kind length.length (length ++ body) =
      if length.head? = some 0 then .error .leadingZero
      else if Bytes.toNat length < 56 then .error .nonCanonicalSize
      else checkPayload ⟨kind, Bytes.toNat length⟩ body := by
  obtain ⟨b, tail, rfl⟩ := List.exists_cons_of_length_pos hpos
  have hthere : Bytes.hasAtLeast (b :: tail).length (b :: tail ++ body) = true := by
    rw [Bytes.hasAtLeast_iff, List.length_append]
    omega
  rw [decodeLong, if_neg (by rw [hthere]; decide), List.take_left' rfl, List.drop_left' rfl]
  rfl

/-! ## The faults of a head -/

/-- A minimal head is refused when it announces more bytes than there are. -/
theorem Head.decode_of_length_lt (hsize : n < 2 ^ 64) (hcut : bs.length < n) :
    decode ((Head.mk kind n).encode ++ bs) = .error .inputTooShort := by
  by_cases hn : n < 56
  · rw [encode_of_lt hn, List.singleton_append]
    cases kind with
    | string =>
      rw [decode_cons_of_shortString (toNat_base_add .string hn) hn]
      exact decodeShortString_eq_error_iff.mpr (.inr ⟨rfl, hcut⟩)
    | list =>
      rw [decode_cons_of_shortList (toNat_base_add .list hn) hn]
      exact checkPayload_eq_error_iff.mpr ⟨rfl, hcut⟩
  · have hfirst := countsLength_of_le kind (by omega) hsize
    rw [encode_of_le (by dsimp only; omega), List.cons_append,
      decode_cons_of_countsLength hfirst, decodeLong_append hfirst.2.1,
      if_neg (Bytes.head?_ofNat_ne_zero n), Bytes.toNat_ofNat, if_neg hn]
    exact checkPayload_eq_error_iff.mpr ⟨rfl, hcut⟩

/-- A long head that is refused has one of the faults of a head. -/
theorem headFault_of_decodeLong (hfirst : CountsLength kind count first)
    (h : Head.decodeLong kind count rest = .error e) : HeadFault (first :: rest) e := by
  by_cases hcut : rest.length < count
  · rw [Head.decodeLong_of_length_lt hcut] at h
    obtain rfl := Except.error.inj h
    exact .cutHead hfirst hcut
  obtain ⟨length, body, rfl, rfl⟩ : ∃ length body, length.length = count ∧ rest = length ++ body :=
    ⟨rest.take count, rest.drop count, by rw [List.length_take]; omega,
      (List.take_append_drop _ _).symm⟩
  rw [Head.decodeLong_append hfirst.2.1] at h
  split at h
  · next hzero =>
    obtain rfl := Except.error.inj h
    exact .leadingZero body hfirst hzero
  next hzero =>
  split at h
  · next hsmall =>
    obtain rfl := Except.error.inj h
    exact .nonCanonicalSize body hfirst hzero hsmall
  · -- the length is minimal, so the head is the one that is written for it
    next hlarge =>
    obtain ⟨rfl, hbody⟩ := Head.checkPayload_eq_error_iff.mp h
    have hcount := Bytes.byteCount_toNat hzero
    have hhead := Head.cons_eq_encode_long (n := Bytes.toNat length) body
      (by rw [hcount]; exact hfirst.1) (by omega)
    rw [Bytes.ofNat_toNat hzero] at hhead
    rw [hhead]
    exact .cutPayload (byteCount_le_eight_iff.mp (by rw [hcount]; exact hfirst.2.2)) hbody

/-- A head is refused exactly for the faults of the byte string that it stands in front of. -/
theorem Head.decode_eq_error_iff : decode bs = .error e ↔ HeadFault bs e := by
  constructor
  · intro h
    cases bs with
    | nil =>
      obtain rfl := Except.error.inj h
      exact .noHead
    | cons first rest =>
      rcases first_cases first with hown | ⟨n, hn, hfirst⟩ | ⟨n, hn, hfirst⟩ | ⟨kind, count, hfirst⟩
      · rw [decode_cons_of_own hown] at h
        simp at h
      · rw [decode_cons_of_shortString hfirst hn] at h
        rcases decodeShortString_eq_error_iff.mp h with ⟨rfl, rfl, b, body, rfl, hb⟩ | ⟨rfl, hcut⟩
        · obtain rfl : first = 0x81 := UInt8.toNat_inj.mp hfirst
          exact .nonCanonicalSingleByte body hb
        · rw [cons_eq_encode_short rest hfirst hn]
          exact .cutPayload (by omega) hcut
      · rw [decode_cons_of_shortList hfirst hn] at h
        obtain ⟨rfl, hcut⟩ := checkPayload_eq_error_iff.mp h
        rw [cons_eq_encode_short rest hfirst hn]
        exact .cutPayload (by omega) hcut
      · rw [decode_cons_of_countsLength hfirst] at h
        exact headFault_of_decodeLong hfirst h
  · rintro (⟨body, hfirst, hzero⟩ | ⟨body, hfirst, hzero, hsmall⟩ | ⟨body, hb⟩ | _ |
      ⟨hfirst, hcut⟩ | ⟨hsize, hcut⟩)
    · rw [decode_cons_of_countsLength hfirst, decodeLong_append hfirst.2.1, if_pos hzero]
    · rw [decode_cons_of_countsLength hfirst, decodeLong_append hfirst.2.1, if_neg hzero,
        if_pos hsmall]
    · rw [decode_cons_of_shortString (n := 1) rfl (by decide)]
      exact decodeShortString_eq_error_iff.mpr (.inl ⟨rfl, rfl, _, _, rfl, hb⟩)
    · rfl
    · rw [decode_cons_of_countsLength hfirst, decodeLong_of_length_lt hcut]
    · exact decode_of_length_lt hsize hcut

/-! ## More bytes behind a head -/

/-- A head that is not minimal is so whatever follows. -/
theorem HeadFault.append (h : HeadFault bs e) (he : e ≠ .inputTooShort) (more : Bytes) :
    HeadFault (bs ++ more) e := by
  cases h with
  | @leadingZero kind first length body hfirst hzero =>
    rw [List.cons_append, List.append_assoc]
    exact .leadingZero (body ++ more) hfirst hzero
  | @nonCanonicalSize kind first length body hfirst hzero hsmall =>
    rw [List.cons_append, List.append_assoc]
    exact .nonCanonicalSize (body ++ more) hfirst hzero hsmall
  | nonCanonicalSingleByte body hb => exact .nonCanonicalSingleByte (body ++ more) hb
  | noHead => exact absurd rfl he
  | cutHead => exact absurd rfl he
  | cutPayload => exact absurd rfl he

/-- A head that is refused, other than for being too short, is refused whatever follows. -/
theorem Head.decode_append_of_error (h : decode bs = .error e) (he : e ≠ .inputTooShort)
    (more : Bytes) : decode (bs ++ more) = .error e :=
  decode_eq_error_iff.mpr ((decode_eq_error_iff.mp h).append he more)

end

end Ethereum.Rlp
