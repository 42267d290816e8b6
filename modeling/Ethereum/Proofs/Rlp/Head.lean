import Ethereum.Bytes.Lemmas
import Ethereum.Rlp.Head

/-!
# Heads have one spelling

`Head.decode` accepts a byte string exactly when it starts with the spelling that `Head.before`
gives, and `takePayload` exactly when it starts with the item that `encodeItem` writes. Both are
stated as equivalences, so that reading back what was written and refusing every other spelling
are the two directions of one fact.

## Main statements

* `Head.decode_eq_ok_iff`, `takePayload_eq_ok_iff` — what is read is what is written, and only that.
* `encodeItem_append_inj` — an item can be told from what follows it.
-/

namespace Ethereum

/-- Results of readers can be compared, so that reading can be evaluated in statements. -/
instance decidableEqExcept {ε α : Type} [DecidableEq ε] [DecidableEq α] :
    DecidableEq (Except ε α)
  | .error e, .error e' => decidable_of_iff (e = e') (by simp)
  | .error _, .ok _ => isFalse nofun
  | .ok _, .error _ => isFalse nofun
  | .ok a, .ok a' => decidable_of_iff (a = a') (by simp)

/-- A sequence of two steps gives a result exactly when both steps do. -/
theorem bind_eq_ok_iff {ε α β : Type} {x : Except ε α} {f : α → Except ε β} {b : β} :
    (x >>= f) = .ok b ↔ ∃ a, x = .ok a ∧ f a = .ok b := by
  cases x <;> simp [bind, Except.bind]

/-- A sequence of two steps fails exactly when the first does, or the second behind it. -/
theorem bind_eq_error_iff {ε α β : Type} {x : Except ε α} {f : α → Except ε β} {e : ε} :
    (x >>= f) = .error e ↔ x = .error e ∨ ∃ a, x = .ok a ∧ f a = .error e := by
  cases x <;> simp [bind, Except.bind]

namespace Rlp

/-! ## Lengths -/

@[simp] theorem ItemKind.base_string : ItemKind.string.base = 0x80 := rfl

@[simp] theorem ItemKind.base_list : ItemKind.list.base = 0xc0 := rfl

/-- A head takes the bytes that are announced for it. -/
theorem Head.length_encode (head : Head) : head.encode.length = Head.size head.payload := by
  rw [Head.encode, Head.size]
  split
  · rfl
  · simp [Nat.add_comm]

/-- A longer payload has no shorter head. -/
theorem Head.size_mono {m n : Nat} (h : m ≤ n) : Head.size m ≤ Head.size n := by
  have hcount := Bytes.byteCount_mono h
  rw [Head.size, Head.size]
  split <;> split <;> omega

theorem Head.size_pos (n : Nat) : 0 < Head.size n := by
  rw [Head.size]
  split <;> omega

theorem toNat_ofNat_of_lt {n : Nat} (h : n < 256) : (UInt8.ofNat n).toNat = n := by
  rw [UInt8.toNat_ofNat', Nat.mod_eq_of_lt h]

/-- A length of 64 bits takes at most eight bytes. -/
theorem byteCount_le_eight_iff {n : Nat} : Bytes.byteCount n ≤ 8 ↔ n < 2 ^ 64 := by
  constructor
  · intro h
    have hlt := Bytes.lt_pow_byteCount n
    have hpow : 256 ^ Bytes.byteCount n ≤ 256 ^ 8 := Nat.pow_le_pow_right (by decide) h
    omega
  · intro h
    exact Bytes.byteCount_le (by omega)

/-! ## The four forms of a head -/

/-- Whether a first byte announces a long item of a kind, whose length takes `count` bytes. -/
def CountsLength (kind : ItemKind) (count : Nat) (first : UInt8) : Prop :=
  first.toNat = kind.base + 55 + count ∧ 0 < count ∧ count ≤ 8

instance (kind : ItemKind) (count : Nat) (first : UInt8) :
    Decidable (CountsLength kind count first) :=
  inferInstanceAs (Decidable (_ ∧ _))

section
variable {kind : ItemKind} {n count : Nat} {first : UInt8}

/-- A first byte is an item of its own, or announces a short string, a short list or a length. -/
theorem Head.first_cases (first : UInt8) :
    first < 0x80 ∨ (∃ n < 56, first.toNat = ItemKind.string.base + n) ∨
      (∃ n < 56, first.toNat = ItemKind.list.base + n) ∨
        ∃ kind count, CountsLength kind count first := by
  have hlt : first.toNat < 256 := first.toNat_lt
  simp only [UInt8.lt_iff_toNat_lt, UInt8.reduceToNat]
  by_cases hown : first.toNat < 0x80
  · exact .inl hown
  by_cases hshort : first.toNat < 0xb8
  · exact .inr (.inl ⟨first.toNat - 0x80, by omega, by rw [ItemKind.base_string]; omega⟩)
  by_cases hlong : first.toNat < 0xc0
  · refine .inr (.inr (.inr ⟨.string, first.toNat - 0xb7, ?_, by omega, by omega⟩))
    rw [ItemKind.base_string]
    omega
  by_cases hlist : first.toNat < 0xf8
  · exact .inr (.inr (.inl ⟨first.toNat - 0xc0, by omega, by rw [ItemKind.base_list]; omega⟩))
  · refine .inr (.inr (.inr ⟨.list, first.toNat - 0xf7, ?_, by omega, by omega⟩))
    rw [ItemKind.base_list]
    omega

theorem Head.decode_cons_of_own (h : first < 0x80) (rest : Bytes) :
    decode (first :: rest) = .ok (⟨.string, 1⟩, first :: rest) := by
  rw [decode, if_pos h]

theorem Head.decode_cons_of_shortString (h : first.toNat = ItemKind.string.base + n) (hn : n < 56)
    (rest : Bytes) : decode (first :: rest) = decodeShortString n rest := by
  rw [ItemKind.base_string] at h
  simp only [decode, UInt8.lt_iff_toNat_lt, UInt8.reduceToNat, h]
  rw [if_neg (by omega), if_pos (by omega), Nat.add_sub_cancel_left]

theorem Head.decode_cons_of_shortList (h : first.toNat = ItemKind.list.base + n) (hn : n < 56)
    (rest : Bytes) : decode (first :: rest) = checkPayload ⟨.list, n⟩ rest := by
  rw [ItemKind.base_list] at h
  simp only [decode, UInt8.lt_iff_toNat_lt, UInt8.reduceToNat, h]
  rw [if_neg (by omega), if_neg (by omega), if_neg (by omega), if_pos (by omega),
    Nat.add_sub_cancel_left]

theorem Head.decode_cons_of_countsLength (h : CountsLength kind count first) (rest : Bytes) :
    decode (first :: rest) = decodeLong kind count rest := by
  obtain ⟨hfirst, hpos, hle⟩ := h
  cases kind with
  | string =>
    rw [ItemKind.base_string] at hfirst
    simp only [decode, UInt8.lt_iff_toNat_lt, UInt8.reduceToNat, hfirst]
    rw [if_neg (by omega), if_neg (by omega), if_pos (by omega), Nat.add_sub_cancel_left]
  | list =>
    rw [ItemKind.base_list] at hfirst
    simp only [decode, UInt8.lt_iff_toNat_lt, UInt8.reduceToNat, hfirst]
    rw [if_neg (by omega), if_neg (by omega), if_neg (by omega), if_neg (by omega),
      Nat.add_sub_cancel_left]

/-- The first byte of a short head announces its payload. -/
theorem toNat_base_add (kind : ItemKind) (hn : n < 56) :
    (UInt8.ofNat (kind.base + n)).toNat = kind.base + n := by
  have hbase : kind.base ≤ 0xc0 := by cases kind <;> decide
  exact toNat_ofNat_of_lt (by omega)

/-- A length that is minimal is counted by the first byte of its head. -/
theorem countsLength_of_le (kind : ItemKind) (hn : 56 ≤ n) (hsize : n < 2 ^ 64) :
    CountsLength kind (Bytes.ofNat n).length
      (UInt8.ofNat (kind.base + 55 + Bytes.byteCount n)) := by
  have hcount := byteCount_le_eight_iff.mpr hsize
  have hbase : kind.base ≤ 0xc0 := by cases kind <;> decide
  rw [CountsLength, Bytes.length_ofNat, toNat_ofNat_of_lt (by omega)]
  exact ⟨rfl, Bytes.byteCount_pos (by omega), hcount⟩

end

/-! ## Reading a head -/

/-- What stands before the payload of an item: its head, or nothing where a small byte is its own
head. -/
def Head.before (head : Head) (payload : Bytes) : Bytes :=
  if head.kind = .string ∧ isOwnHead payload then [] else head.encode

theorem isOwnHead_iff {bs : Bytes} : isOwnHead bs = true ↔ ∃ b, bs = [b] ∧ b < 0x80 := by
  unfold isOwnHead
  split
  · simp
  · next h => simpa using fun b hb => absurd hb (h b)

theorem Head.checkPayload_eq_ok_iff {head : Head} {bs : Bytes} {r : Head × Bytes} :
    checkPayload head bs = .ok r ↔ r = (head, bs) ∧ head.payload ≤ bs.length := by
  rw [checkPayload]
  split
  · next h => simp [Bytes.hasAtLeast_iff.mp h, eq_comm]
  · next h => simp_all [Bytes.hasAtLeast_iff]

/-- A long length is read exactly when it is the minimal form of a number of 56 or more. -/
theorem Head.decodeLong_eq_ok_iff {kind : ItemKind} {count : Nat} {bs body : Bytes} {head : Head} :
    decodeLong kind count bs = .ok (head, body) ↔
      head.kind = kind ∧ 56 ≤ head.payload ∧ Bytes.byteCount head.payload = count ∧
        bs = Bytes.ofNat head.payload ++ body ∧ head.payload ≤ body.length := by
  rw [decodeLong]
  constructor
  · intro h
    split at h
    · simp at h
    · next hcount =>
      split at h
      · simp at h
      · next hzero =>
        have hle : count ≤ bs.length := by simpa [Bytes.hasAtLeast_iff] using hcount
        have hhead : (bs.take count).head? ≠ some 0 := by
          intro h0
          rw [List.head?_take] at h0
          split at h0
          · simp at h0
          · exact hzero h0
        dsimp only at h
        split at h
        · simp at h
        · next hsmall =>
          obtain ⟨heq, hbody⟩ := checkPayload_eq_ok_iff.mp h
          obtain ⟨rfl, rfl⟩ := Prod.mk.inj heq
          refine ⟨rfl, by simpa using hsmall, ?_, ?_, hbody⟩
          · simpa [hle] using Bytes.byteCount_toNat hhead
          · rw [Bytes.ofNat_toNat hhead, List.take_append_drop]
  · rintro ⟨rfl, hlarge, rfl, rfl, hbody⟩
    have hlen := Bytes.length_ofNat head.payload
    have htake : (Bytes.ofNat head.payload ++ body).take (Bytes.byteCount head.payload) =
        Bytes.ofNat head.payload := List.take_left' hlen
    have hdrop : (Bytes.ofNat head.payload ++ body).drop (Bytes.byteCount head.payload) = body :=
      List.drop_left' hlen
    have hcount : Bytes.hasAtLeast (Bytes.byteCount head.payload)
        (Bytes.ofNat head.payload ++ body) = true := by
      simp [Bytes.hasAtLeast_iff]
    have hzero : (Bytes.ofNat head.payload ++ body).head? ≠ some 0 := by
      have hpos : 0 < Bytes.byteCount head.payload := Bytes.byteCount_pos (by omega)
      obtain ⟨b, rest, hb⟩ := List.exists_cons_of_length_pos (hlen ▸ hpos)
      have hne := Bytes.head?_ofNat_ne_zero head.payload
      rw [hb] at hne ⊢
      exact hne
    rw [if_neg (by simp [hcount]), if_neg hzero, htake, hdrop, Bytes.toNat_ofNat,
      if_neg (by omega)]
    exact checkPayload_eq_ok_iff.mpr ⟨rfl, hbody⟩

/-- A short string is read exactly when its payload is there and is not its own head. -/
theorem Head.decodeShortString_eq_ok_iff {n : Nat} {bs body : Bytes} {head : Head} :
    decodeShortString n bs = .ok (head, body) ↔
      head = ⟨.string, n⟩ ∧ bs = body ∧ n ≤ body.length ∧ isOwnHead (body.take n) = false := by
  unfold decodeShortString
  by_cases hone : n = 1
  · subst hone
    cases bs with
    | nil => simp +contextual
    | cons b rest =>
      rw [if_pos rfl]
      dsimp only
      -- the one string of one byte that is refused is the byte that is its own head
      by_cases hb : b < 0x80
      · rw [if_pos hb]
        simp only [reduceCtorEq, false_iff]
        rintro ⟨-, rfl, -, hown⟩
        simp [isOwnHead, hb] at hown
      · rw [if_neg hb, checkPayload_eq_ok_iff]
        constructor
        · rintro ⟨heq, hlen⟩
          obtain ⟨rfl, rfl⟩ := Prod.mk.inj heq
          exact ⟨rfl, rfl, hlen, by simp [isOwnHead, hb]⟩
        · rintro ⟨rfl, rfl, hlen, -⟩
          exact ⟨rfl, hlen⟩
  · rw [if_neg hone, checkPayload_eq_ok_iff]
    constructor
    · rintro ⟨heq, hlen⟩
      obtain ⟨rfl, rfl⟩ := Prod.mk.inj heq
      refine ⟨rfl, rfl, hlen, ?_⟩
      dsimp only at hlen
      rw [← Bool.not_eq_true, isOwnHead_iff]
      rintro ⟨b, hb, -⟩
      have hb' := congrArg List.length hb
      simp only [List.length_take, List.length_singleton] at hb'
      omega
    · rintro ⟨rfl, rfl, hlen, -⟩
      exact ⟨rfl, hlen⟩

theorem Head.encode_of_lt {head : Head} (h : head.payload < 56) :
    head.encode = [UInt8.ofNat (head.kind.base + head.payload)] := by
  rw [Head.encode, if_pos h]

theorem Head.encode_of_le {head : Head} (h : 56 ≤ head.payload) :
    head.encode = UInt8.ofNat (head.kind.base + 55 + Bytes.byteCount head.payload) ::
      Bytes.ofNat head.payload := by
  rw [Head.encode, if_neg (by omega)]
  simp

theorem isOwnHead_of_length_ne {bs : Bytes} (h : bs.length ≠ 1) : isOwnHead bs = false := by
  rw [← Bool.not_eq_true, isOwnHead_iff]
  rintro ⟨b, rfl, -⟩
  exact h rfl

theorem Head.before_list (n : Nat) (payload : Bytes) :
    (Head.mk .list n).before payload = (Head.mk .list n).encode := by
  simp [before]

theorem Head.before_string (n : Nat) {payload : Bytes} (h : isOwnHead payload = false) :
    (Head.mk .string n).before payload = (Head.mk .string n).encode := by
  simp [before, h]

/-- A payload that is not a single byte has a head. -/
theorem Head.before_of_length_ne (kind : ItemKind) (n : Nat) {payload : Bytes}
    (h : payload.length ≠ 1) : (Head.mk kind n).before payload = (Head.mk kind n).encode := by
  simp [before, isOwnHead_of_length_ne h]

/-- A first byte that announces a short payload is the head of it. -/
theorem Head.cons_eq_encode_short {kind : ItemKind} {n : Nat} {b : UInt8} (rest : Bytes)
    (hb : b.toNat = kind.base + n) (hn : n < 56) : b :: rest = (Head.mk kind n).encode ++ rest := by
  rw [encode_of_lt hn, List.singleton_append]
  dsimp only
  rw [← hb, UInt8.ofNat_toNat]

/-- A first byte that counts the bytes of a length, and the length, are the head of it. -/
theorem Head.cons_eq_encode_long {kind : ItemKind} {n : Nat} {b : UInt8} (rest : Bytes)
    (hb : b.toNat = kind.base + 55 + Bytes.byteCount n) (hn : 56 ≤ n) :
    b :: (Bytes.ofNat n ++ rest) = (Head.mk kind n).encode ++ rest := by
  rw [encode_of_le hn, List.cons_append]
  dsimp only
  rw [← hb, UInt8.ofNat_toNat]

/-- What is read as a head is the spelling of that head. -/
theorem Head.eq_before_of_decode {bs body : Bytes} {head : Head}
    (h : decode bs = .ok (head, body)) :
    bs = head.before (body.take head.payload) ++ body ∧ head.payload ≤ body.length ∧
      head.payload < 2 ^ 64 := by
  cases bs with
  | nil => simp [decode] at h
  | cons first rest =>
    obtain ⟨kind, n⟩ := head
    rcases first_cases first with hown | ⟨m, hm, hfirst⟩ | ⟨m, hm, hfirst⟩ | ⟨own, count, hfirst⟩
    · -- a small byte, which stays in place
      rw [decode_cons_of_own hown] at h
      obtain ⟨hhead, rfl⟩ := Prod.mk.inj (Except.ok.inj h)
      obtain ⟨rfl, rfl⟩ := Head.mk.inj hhead
      simp [before, isOwnHead, hown]
    · rw [decode_cons_of_shortString hfirst hm] at h
      obtain ⟨hhead, rfl, hlen, hown⟩ := decodeShortString_eq_ok_iff.mp h
      obtain ⟨rfl, rfl⟩ := Head.mk.inj hhead
      rw [before_string _ hown]
      exact ⟨cons_eq_encode_short _ hfirst hm, hlen, Nat.lt_trans hm (by decide)⟩
    · rw [decode_cons_of_shortList hfirst hm] at h
      obtain ⟨heq, hlen⟩ := checkPayload_eq_ok_iff.mp h
      obtain ⟨hhead, rfl⟩ := Prod.mk.inj heq
      obtain ⟨rfl, rfl⟩ := Head.mk.inj hhead
      rw [before_list]
      exact ⟨cons_eq_encode_short _ hfirst hm, hlen, Nat.lt_trans hm (by decide)⟩
    · rw [decode_cons_of_countsLength hfirst] at h
      obtain ⟨rfl, hlarge, rfl, rfl, hlen⟩ := decodeLong_eq_ok_iff.mp h
      dsimp only at hlarge hlen ⊢
      rw [before_of_length_ne _ _ (by rw [List.length_take]; omega)]
      exact ⟨cons_eq_encode_long _ hfirst.1 hlarge, hlen, byteCount_le_eight_iff.mp hfirst.2.2⟩

/-- A short head is read off the front of its payload. -/
theorem Head.decode_encode_short {kind : ItemKind} {n : Nat} {body : Bytes} (hn : n < 56)
    (hlen : n ≤ body.length) (hown : kind = .string → isOwnHead (body.take n) = false) :
    decode ((Head.mk kind n).encode ++ body) = .ok (⟨kind, n⟩, body) := by
  rw [encode_of_lt hn, List.singleton_append]
  cases kind with
  | string =>
    rw [decode_cons_of_shortString (toNat_base_add .string hn) hn]
    exact decodeShortString_eq_ok_iff.mpr ⟨rfl, rfl, hlen, hown rfl⟩
  | list =>
    rw [decode_cons_of_shortList (toNat_base_add .list hn) hn]
    exact checkPayload_eq_ok_iff.mpr ⟨rfl, hlen⟩

/-- A long head is read off the front of its payload. -/
theorem Head.decode_encode_long {kind : ItemKind} {n : Nat} {body : Bytes} (hn : 56 ≤ n)
    (hsize : n < 2 ^ 64) (hlen : n ≤ body.length) :
    decode ((Head.mk kind n).encode ++ body) = .ok (⟨kind, n⟩, body) := by
  rw [encode_of_le hn, List.cons_append,
    decode_cons_of_countsLength (countsLength_of_le kind hn hsize)]
  exact decodeLong_eq_ok_iff.mpr ⟨rfl, hn, (Bytes.length_ofNat n).symm, rfl, hlen⟩

/-- The spelling of a head is read as that head, when its payload follows. -/
theorem Head.decode_before {body : Bytes} {head : Head} (hlen : head.payload ≤ body.length)
    (hsize : head.payload < 2 ^ 64) :
    decode (head.before (body.take head.payload) ++ body) = .ok (head, body) := by
  obtain ⟨kind, n⟩ := head
  dsimp only at hlen hsize ⊢
  by_cases hown : kind = .string ∧ isOwnHead (body.take n) = true
  · -- nothing was written in front, and the byte that is left in place is below `0x80`
    rw [before, if_pos hown, List.nil_append]
    obtain ⟨rfl, hown⟩ := hown
    obtain ⟨b, hb, hsmall⟩ := isOwnHead_iff.mp hown
    have hn := congrArg List.length hb
    rw [List.length_take, List.length_singleton] at hn
    obtain ⟨c, rest, rfl⟩ := List.exists_cons_of_length_pos (l := body) (by omega)
    obtain rfl : n = 1 := by omega
    obtain rfl : c = b := by simpa using hb
    rw [decode, if_pos hsmall]
  · rw [before, if_neg hown]
    by_cases hn : n < 56
    · exact decode_encode_short hn hlen fun hkind => by simpa [hkind] using hown
    · exact decode_encode_long (by omega) hsize hlen

/-- A byte string starts with a head exactly when it starts with the one spelling of that head,
followed by its payload. -/
theorem Head.decode_eq_ok_iff {bs body : Bytes} {head : Head} :
    decode bs = .ok (head, body) ↔
      bs = head.before (body.take head.payload) ++ body ∧ head.payload ≤ body.length ∧
        head.payload < 2 ^ 64 := by
  constructor
  · exact eq_before_of_decode
  · rintro ⟨rfl, hlen, hsize⟩
    exact decode_before hlen hsize

/-! ## Reading an item -/

/-- A payload as an item of the given kind. -/
def encodeItem (kind : ItemKind) (payload : Bytes) : Bytes :=
  (Head.mk kind payload.length).before payload ++ payload

theorem encodeItem_list (payload : Bytes) : encodeItem .list payload = encodeList payload := by
  rw [encodeItem, Head.before_list, encodeList]

theorem encodeItem_string (payload : Bytes) :
    encodeItem .string payload = encodeString payload := by
  rw [encodeItem, Head.before, encodeString]
  by_cases h : isOwnHead payload <;> simp [h]

/-- A string takes the bytes that are announced for it. -/
theorem length_encodeString (bs : Bytes) : (encodeString bs).length = stringSize bs := by
  rw [encodeString, stringSize]
  split
  · next h =>
    obtain ⟨b, rfl, -⟩ := isOwnHead_iff.mp h
    rfl
  · rw [List.length_append, Head.length_encode]

theorem length_encodeList (payload : Bytes) :
    (encodeList payload).length = Head.size payload.length + payload.length := by
  rw [encodeList, List.length_append, Head.length_encode]

theorem length_le_length_encodeItem (kind : ItemKind) (payload : Bytes) :
    payload.length ≤ (encodeItem kind payload).length := by
  rw [encodeItem, List.length_append]
  omega

theorem length_le_length_encodeString (bs : Bytes) : bs.length ≤ (encodeString bs).length := by
  rw [← encodeItem_string]
  exact length_le_length_encodeItem .string bs

/-- The head of an item with a length of 64 bits takes at most nine bytes. -/
theorem Head.size_le_nine {n : Nat} (h : n < 2 ^ 64) : Head.size n ≤ 9 := by
  have hcount := byteCount_le_eight_iff.mpr h
  rw [Head.size]
  split <;> omega

theorem length_encodeString_le {bs : Bytes} (h : bs.length < 2 ^ 64) :
    (encodeString bs).length ≤ bs.length + 9 := by
  have hsize := Head.size_le_nine h
  rw [length_encodeString, stringSize]
  split <;> omega

theorem length_encodeString_lt {bs : Bytes} (h : bs.length < 2 ^ 64) :
    (encodeString bs).length < 2 ^ 64 + 10 := by
  have hle := length_encodeString_le h
  omega

/-- No item is empty. -/
theorem encodeItem_ne_nil (kind : ItemKind) (payload : Bytes) : encodeItem kind payload ≠ [] := by
  apply List.ne_nil_of_length_pos
  cases kind with
  | string =>
    rw [encodeItem_string, length_encodeString, stringSize]
    have hpos := Head.size_pos payload.length
    split <;> omega
  | list =>
    rw [encodeItem_list, length_encodeList]
    have hpos := Head.size_pos payload.length
    omega

/-- An item announces its own kind and length, whatever follows it. -/
theorem Head.decode_encodeItem (kind : ItemKind) {payload : Bytes} (rest : Bytes)
    (hsize : payload.length < 2 ^ 64) :
    decode (encodeItem kind payload ++ rest) =
      .ok (⟨kind, payload.length⟩, payload ++ rest) := by
  rw [encodeItem, List.append_assoc]
  have hlen : payload.length ≤ (payload ++ rest).length := by simp
  have h : decode ((Head.mk kind payload.length).before ((payload ++ rest).take payload.length) ++
      (payload ++ rest)) = .ok (⟨kind, payload.length⟩, payload ++ rest) :=
    decode_before hlen hsize
  rwa [List.take_left' rfl] at h

/-- A payload is split off exactly when a byte string starts with it as an item. -/
theorem takePayload_eq_ok_iff {kind : ItemKind} {bs payload rest : Bytes} :
    takePayload kind bs = .ok (payload, rest) ↔
      bs = encodeItem kind payload ++ rest ∧ payload.length < 2 ^ 64 := by
  rw [takePayload, bind_eq_ok_iff]
  constructor
  · rintro ⟨⟨head, body⟩, hdec, h⟩
    obtain ⟨hbs, hlen, hsize⟩ := Head.decode_eq_ok_iff.mp hdec
    dsimp only at h
    split at h
    · next hkind =>
      rw [List.splitAt_eq, Except.ok.injEq, Prod.mk.injEq] at h
      obtain ⟨rfl, rfl⟩ := h
      have htake : (body.take head.payload).length = head.payload := by
        rw [List.length_take, Nat.min_eq_left hlen]
      rw [encodeItem, htake, List.append_assoc, List.take_append_drop, ← hkind]
      exact ⟨hbs, hsize⟩
    · simp at h
  · rintro ⟨rfl, hsize⟩
    exact ⟨_, Head.decode_encodeItem kind rest hsize, by simp⟩

/-- The payload of an item is split off it. -/
theorem takePayload_encodeItem (kind : ItemKind) {payload : Bytes} (rest : Bytes)
    (hsize : payload.length < 2 ^ 64) :
    takePayload kind (encodeItem kind payload ++ rest) = .ok (payload, rest) :=
  takePayload_eq_ok_iff.mpr ⟨rfl, hsize⟩

/-! ## Items side by side -/

/-- An item ends where its head says, so no item is a proper start of another one. -/
theorem encodeItem_append_inj {kind kind' : ItemKind} {payload payload' rest rest' : Bytes}
    (hsize : payload.length < 2 ^ 64) (hsize' : payload'.length < 2 ^ 64)
    (h : encodeItem kind payload ++ rest = encodeItem kind' payload' ++ rest') :
    kind = kind' ∧ payload = payload' ∧ rest = rest' := by
  -- both sides are one byte string, and reading it gives one head
  have hdec := Head.decode_encodeItem kind rest hsize
  rw [h, Head.decode_encodeItem kind' rest' hsize', Except.ok.injEq, Prod.mk.injEq, Head.mk.injEq] at hdec
  obtain ⟨⟨hkind, hlen⟩, hbody⟩ := hdec
  obtain ⟨hpayload, hrest⟩ := List.append_inj hbody hlen
  exact ⟨hkind.symm, hpayload.symm, hrest.symm⟩

/-! ## Single items -/

/-- The length of a payload can be told from that of the whole, however long it is. -/
theorem Head.size_add_inj {m n : Nat} (h : Head.size m + m = Head.size n + n) : m = n := by
  rcases Nat.lt_trichotomy m n with hlt | heq | hgt
  · have hmono := Head.size_mono (Nat.le_of_lt hlt)
    omega
  · exact heq
  · have hmono := Head.size_mono (Nat.le_of_lt hgt)
    omega

theorem encodeList_inj {payload payload' : Bytes} (h : encodeList payload = encodeList payload') :
    payload = payload' := by
  have hlen := congrArg List.length h
  rw [length_encodeList, length_encodeList] at hlen
  rw [encodeList, encodeList, Head.size_add_inj hlen] at h
  exact List.append_cancel_left h

/-- A byte that is its own head is not the item of any other string. -/
theorem eq_of_encodeString_eq_of_isOwnHead {as bs : Bytes} (ha : isOwnHead as = true)
    (h : encodeString as = encodeString bs) : as = bs := by
  rw [encodeString, if_pos ha, encodeString] at h
  split at h
  · exact h
  · obtain ⟨a, rfl, hsmall⟩ := isOwnHead_iff.mp ha
    have hlen := congrArg List.length h
    rw [List.length_singleton, List.length_append, Head.length_encode] at hlen
    have hpos := Head.size_pos bs.length
    dsimp only at hlen
    -- the other string has nothing but a head, and no head is a byte below `0x80`
    obtain rfl : bs = [] := List.eq_nil_of_length_eq_zero (by omega)
    have hbyte : [a] = [0x80] := h
    obtain rfl : a = 0x80 := (List.cons.inj hbyte).1
    exact absurd hsmall (by decide)

theorem encodeString_inj {as bs : Bytes} (h : encodeString as = encodeString bs) : as = bs := by
  by_cases ha : isOwnHead as = true
  · exact eq_of_encodeString_eq_of_isOwnHead ha h
  · by_cases hb : isOwnHead bs = true
    · exact (eq_of_encodeString_eq_of_isOwnHead hb h.symm).symm
    · rw [encodeString, if_neg ha, encodeString, if_neg hb] at h
      have hlen := congrArg List.length h
      rw [List.length_append, List.length_append, Head.length_encode, Head.length_encode] at hlen
      have hlength : as.length = bs.length := Head.size_add_inj hlen
      rw [hlength] at h
      exact List.append_cancel_left h

end Rlp

end Ethereum
