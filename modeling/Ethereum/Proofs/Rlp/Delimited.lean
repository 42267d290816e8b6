import Ethereum.Proofs.Rlp.Scalar

/-!
# Where an encoding ends

Readers take lengths of 64 bits, and two encodings with such lengths can be told from what follows
them. The writer has no such limit: for a longer string, the byte that counts the bytes of the
length wraps around. If what follows is short, the end of a string can be told even then. The
lengths of two strings in front of short rests are not far apart, so neither are the byte counts of
these lengths, and the first byte tells them apart although it wraps around.

## Main statements

* `encodeString_append_inj` — strings of any length can be told from short rests.
* `flatten_inj_of_isCell` — cells written one after the other can be told apart again.
* `Codec.Delimited` — formats whose encodings can be told from short rests.
-/

namespace Ethereum.Rlp

/-! ## The first byte of a string -/

/-- The number in the first byte of a string item, before it wraps around. -/
def stringFirst (bs : Bytes) : Nat :=
  if isOwnHead bs then Bytes.toNat bs
  else if bs.length < 56 then 0x80 + bs.length
  else 0xb7 + Bytes.byteCount bs.length

/-- A long string starts with a byte that counts the bytes of its length. -/
theorem encodeString_of_le {bs : Bytes} (h : 56 ≤ bs.length) :
    encodeString bs =
      UInt8.ofNat (0xb7 + Bytes.byteCount bs.length) :: (Bytes.ofNat bs.length ++ bs) := by
  have hown : isOwnHead bs = false := isOwnHead_of_length_ne (by omega)
  rw [encodeString, if_neg (by simp [hown]), Head.encode_of_le h]
  rfl

theorem head?_encodeString (bs : Bytes) :
    (encodeString bs).head? = some (UInt8.ofNat (stringFirst bs)) := by
  rw [stringFirst]
  split
  · next hown =>
    obtain ⟨b, rfl, -⟩ := isOwnHead_iff.mp hown
    simp [encodeString, hown, Bytes.toNat]
  · next hown =>
    split
    · next hshort =>
      rw [encodeString, if_neg hown, Head.encode_of_lt hshort]
      rfl
    · next hlong =>
      rw [encodeString_of_le (by omega), List.head?_cons]

/-- The first byte says whether the string is long. -/
theorem stringFirst_cases (bs : Bytes) :
    (bs.length < 56 ∧ stringFirst bs < 0xb8) ∨
      (56 ≤ bs.length ∧ stringFirst bs = 0xb7 + Bytes.byteCount bs.length) := by
  rw [stringFirst]
  split
  · next hown =>
    obtain ⟨b, rfl, hsmall⟩ := isOwnHead_iff.mp hown
    have hb : b.toNat < 0x80 := UInt8.lt_iff_toNat_lt.mp hsmall
    have hvalue : Bytes.toNat [b] = b.toNat := by simp [Bytes.toNat]
    exact .inl ⟨by simp, by omega⟩
  · split
    · next hshort => exact .inl ⟨hshort, by omega⟩
    · next hlong => exact .inr ⟨by omega, rfl⟩

/-! ## Strings before short rests -/

section
variable {p q s t : Bytes}

/-- Two strings before short rests are not far apart in length. -/
theorem length_le_add_of_append_eq (hs : s.length < 2 ^ 65)
    (h : encodeString p ++ s = encodeString q ++ t) : q.length ≤ p.length + 2 ^ 65 := by
  have hlen := congrArg List.length h
  rw [List.length_append, List.length_append, length_encodeString, length_encodeString] at hlen
  by_contra hfar
  have hsize : Head.size p.length ≤ Head.size q.length := Head.size_mono (by omega)
  have hp : stringSize p ≤ Head.size p.length + p.length := by
    rw [stringSize]
    have hpos := Head.size_pos p.length
    split <;> omega
  have hq : stringSize q = Head.size q.length + q.length := by
    rw [stringSize, isOwnHead_of_length_ne (by omega)]
    rfl
  omega

/-- A length that is not far above another one takes at most one byte more, or ten. -/
theorem byteCount_le_of_le_add {m n : Nat} (h : n ≤ m + 2 ^ 65) :
    Bytes.byteCount n ≤ max (Bytes.byteCount m) 9 + 1 := by
  have hm := Bytes.lt_pow_byteCount m
  have hleft : 256 ^ Bytes.byteCount m ≤ 256 ^ max (Bytes.byteCount m) 9 :=
    Nat.pow_le_pow_right (by decide) (Nat.le_max_left _ _)
  have hright : 256 ^ 9 ≤ 256 ^ max (Bytes.byteCount m) 9 :=
    Nat.pow_le_pow_right (by decide) (Nat.le_max_right _ _)
  apply Bytes.byteCount_le
  rw [Nat.pow_succ]
  omega

/-- Equal sequences start with the same byte. -/
theorem stringFirst_mod_eq (h : encodeString p ++ s = encodeString q ++ t) :
    stringFirst p % 256 = stringFirst q % 256 := by
  have hhead := congrArg List.head? h
  rw [List.head?_append, List.head?_append, head?_encodeString, head?_encodeString,
    Option.some_or, Option.some_or, Option.some.injEq, ← UInt8.toNat_inj, UInt8.toNat_ofNat',
    UInt8.toNat_ofNat'] at hhead
  exact hhead

/-- A string of any length can be told from a short rest. -/
theorem encodeString_append_inj (hs : s.length < 2 ^ 65) (ht : t.length < 2 ^ 65)
    (h : encodeString p ++ s = encodeString q ++ t) : p = q ∧ s = t := by
  have hmod := stringFirst_mod_eq h
  have hpq := byteCount_le_of_le_add (length_le_add_of_append_eq hs h)
  have hqp := byteCount_le_of_le_add (length_le_add_of_append_eq ht h.symm)
  have hcount : ∀ bs : Bytes, bs.length < 56 → Bytes.byteCount bs.length ≤ 1 :=
    fun bs hbs => Bytes.byteCount_le (by omega)
  rcases stringFirst_cases p with ⟨hp, hpfirst⟩ | ⟨hp, hpfirst⟩
  · have hpcount := hcount p hp
    rcases stringFirst_cases q with ⟨hq, -⟩ | ⟨hq, hqfirst⟩
    · -- both are read as they are
      rw [← encodeItem_string, ← encodeItem_string] at h
      exact (encodeItem_append_inj (by omega) (by omega) h).2
    · have hqpos := Bytes.byteCount_pos (n := q.length) (by omega)
      omega
  · rcases stringFirst_cases q with ⟨hq, hqfirst⟩ | ⟨hq, hqfirst⟩
    · have hqcount := hcount q hq
      have hppos := Bytes.byteCount_pos (n := p.length) (by omega)
      omega
    · -- the same number of bytes for the length, and so the same length
      have hbytes : Bytes.byteCount p.length = Bytes.byteCount q.length := by omega
      rw [encodeString_of_le hp, encodeString_of_le hq, List.cons_append, List.cons_append,
        List.append_assoc, List.append_assoc] at h
      obtain ⟨hlength, hrest⟩ := List.append_inj (List.cons.inj h).2 (by simp [hbytes])
      have hlen := congrArg Bytes.toNat hlength
      rw [Bytes.toNat_ofNat, Bytes.toNat_ofNat] at hlen
      exact List.append_inj hrest hlen

/-- No string before a short rest starts like a short list that is not empty. -/
theorem encodeString_append_ne_encodeList_append {payload : Bytes} (hne : payload ≠ [])
    (hlen : payload.length < 56) (ht : t.length < 2 ^ 65) :
    encodeString p ++ s ≠ encodeList payload ++ t := by
  intro h
  have hpos := List.length_pos_iff.mpr hne
  have hhead := congrArg List.head? h
  rw [List.head?_append, head?_encodeString, Option.some_or, encodeList, Head.encode_of_lt hlen,
    List.append_assoc, List.singleton_append, List.head?_cons, Option.some.injEq,
    ← UInt8.toNat_inj, UInt8.toNat_ofNat', UInt8.toNat_ofNat', ItemKind.base_list] at hhead
  have hsize := congrArg List.length h
  rw [List.length_append, List.length_append, length_encodeList, Head.size, if_pos hlen] at hsize
  have hp := length_le_length_encodeString p
  -- the length of the string has nine bytes at most, so its first byte is that of an empty list
  -- at most
  have hcount : Bytes.byteCount p.length ≤ 9 := Bytes.byteCount_le (by omega)
  dsimp only at hhead
  rcases stringFirst_cases p with ⟨-, hfirst⟩ | ⟨-, hfirst⟩
  · omega
  · omega

end

/-! ## Sequences of cells -/

/-- What can stand in a node of a trie: a string of any length, or a short list that is not
empty. -/
inductive IsCell : Bytes → Prop where
  | string (bs : Bytes) : IsCell (encodeString bs)
  | list {payload : Bytes} (hne : payload ≠ []) (hlen : payload.length < 56) :
    IsCell (encodeList payload)

theorem IsCell.ne_nil {bs : Bytes} (h : IsCell bs) : bs ≠ [] := by
  cases h with
  | string bs =>
    rw [← encodeItem_string]
    exact encodeItem_ne_nil _ _
  | list =>
    rw [← encodeItem_list]
    exact encodeItem_ne_nil _ _

theorem IsCell.append_inj {a b s t : Bytes} (ha : IsCell a) (hb : IsCell b)
    (hs : s.length < 2 ^ 65) (ht : t.length < 2 ^ 65) (h : a ++ s = b ++ t) : a = b ∧ s = t := by
  cases ha with
  | string p =>
    cases hb with
    | string q =>
      obtain ⟨rfl, rfl⟩ := encodeString_append_inj hs ht h
      exact ⟨rfl, rfl⟩
    | list hne hlen => exact absurd h (encodeString_append_ne_encodeList_append hne hlen ht)
  | list hne hlen =>
    cases hb with
    | string q => exact absurd h.symm (encodeString_append_ne_encodeList_append hne hlen hs)
    | list hne' hlen' =>
      rw [← encodeItem_list, ← encodeItem_list] at h ⊢
      obtain ⟨-, rfl, rfl⟩ := encodeItem_append_inj (by omega) (by omega) h
      exact ⟨rfl, rfl⟩

theorem length_flatten_tail_le (xs : List Bytes) : xs.tail.flatten.length ≤ xs.flatten.length := by
  cases xs with
  | nil => rfl
  | cons x xs =>
    rw [List.tail_cons, List.flatten_cons, List.length_append]
    omega

/-- Cells written one after the other can be told apart again, if all but the first are short
together. -/
theorem flatten_inj_of_isCell {xs ys : List Bytes} (hxs : ∀ x ∈ xs, IsCell x)
    (hys : ∀ y ∈ ys, IsCell y) (hx : xs.tail.flatten.length < 2 ^ 65)
    (hy : ys.tail.flatten.length < 2 ^ 65) (h : xs.flatten = ys.flatten) : xs = ys := by
  induction xs generalizing ys with
  | nil =>
    cases ys with
    | nil => rfl
    | cons y ys =>
      rw [List.flatten_nil, List.flatten_cons] at h
      exact absurd (List.append_eq_nil_iff.mp h.symm).1 (hys y List.mem_cons_self).ne_nil
  | cons x xs ih =>
    cases ys with
    | nil =>
      rw [List.flatten_nil, List.flatten_cons] at h
      exact absurd (List.append_eq_nil_iff.mp h).1 (hxs x List.mem_cons_self).ne_nil
    | cons y ys =>
      rw [List.tail_cons] at hx hy
      rw [List.flatten_cons, List.flatten_cons] at h
      obtain ⟨rfl, hrest⟩ :=
        (hxs x List.mem_cons_self).append_inj (hys y List.mem_cons_self) hx hy h
      -- what follows the second cell is part of what follows the first one
      rw [ih (fun z hz => hxs z (List.mem_cons_of_mem _ hz))
        (fun z hz => hys z (List.mem_cons_of_mem _ hz))
        (Nat.lt_of_le_of_lt (length_flatten_tail_le xs) hx)
        (Nat.lt_of_le_of_lt (length_flatten_tail_le ys) hy) hrest]

/-! ## Formats -/

namespace Codec

variable {α β : Type} {c : Codec α} {d : Codec β}

/-- Whether encodings of any length can be told from short rests. -/
def Delimited (c : Codec α) : Prop :=
  ∀ ⦃a b : α⦄ ⦃s t : Bytes⦄, s.length < 2 ^ 65 → t.length < 2 ^ 65 →
    c.encode a ++ s = c.encode b ++ t → a = b ∧ s = t

/-- A lawful format with lengths of 64 bits throughout. -/
structure Short (c : Codec α) : Prop extends c.Lawful where
  length_lt (a : α) : c.length a < 2 ^ 64

theorem bytes_delimited : bytes.Delimited := fun _ _ _ _ hs ht h => encodeString_append_inj hs ht h

/-- What comes after a short format does not keep its end from being told. -/
theorem Short.seq_delimited (hc : c.Short) (hd : d.Delimited) : (c.seq d).Delimited := by
  intro a b s t hs ht h
  rw [encode_seq, encode_seq, List.append_assoc, List.append_assoc] at h
  obtain ⟨hfirst, hrest⟩ := hc.encode_append_inj (hc.length_lt _) (hc.length_lt _) h
  obtain ⟨hsecond, hend⟩ := hd hs ht hrest
  exact ⟨Prod.ext hfirst hsecond, hend⟩

theorem Delimited.imap (hc : c.Delimited) {there : α → β} {back : β → α}
    (hthere : ∀ b, there (back b) = b) : (c.imap there back).Delimited := by
  intro a b s t hs ht h
  obtain ⟨hback, hend⟩ := hc hs ht h
  exact ⟨by rw [← hthere a, hback, hthere], hend⟩

/-- Nor does it keep two sequences from being told apart. -/
theorem Short.seq_injective (hc : c.Short) (hd : Function.Injective d.encode) :
    Function.Injective (c.seq d).encode := by
  intro a b h
  rw [encode_seq, encode_seq] at h
  obtain ⟨hfirst, hrest⟩ := hc.encode_append_inj (hc.length_lt _) (hc.length_lt _) h
  exact Prod.ext hfirst (hd hrest)

/-- A sequence is told from every other one if what comes last is short. -/
theorem Delimited.seq_injective (hc : c.Delimited) (hd : Function.Injective d.encode)
    (hlen : ∀ b, (d.encode b).length < 2 ^ 65) : Function.Injective (c.seq d).encode := by
  intro a b h
  rw [encode_seq, encode_seq] at h
  obtain ⟨hfirst, hrest⟩ := hc (hlen _) (hlen _) h
  exact Prod.ext hfirst (hd hrest)

theorem Short.encode_injective (hc : c.Short) : Function.Injective c.encode :=
  fun _ _ h => hc.encode_inj (hc.length_lt _) h

theorem fixed_short {n : Nat} (hn : n < 2 ^ 32) : (fixed n).Short where
  toLawful := fixed_lawful n
  length_lt bs := by
    show stringSize bs.toBytes < 2 ^ 64
    have hcount : Bytes.byteCount n ≤ 4 := Bytes.byteCount_le (by omega)
    rw [stringSize, Head.size, bs.length_toBytes]
    split
    · omega
    · split <;> omega

/-- A number of `k` bytes takes one byte more, unless it is small. -/
theorem natSize_le {n k : Nat} (h : n < 256 ^ k) (hk : k < 56) : natSize n ≤ k + 1 := by
  have hcount := Bytes.byteCount_le h
  rw [natSize, Head.size, if_pos (by omega : Bytes.byteCount n < 56)]
  split <;> omega

theorem uint64_short : uint64.Short where
  toLawful := uint64_lawful
  length_lt n := by
    have hle : uint64.length n ≤ 8 + 1 := natSize_le n.toNat_lt (by decide)
    omega

theorem uint256_short : uint256.Short where
  toLawful := uint256_lawful
  length_lt n := by
    have hle : uint256.length n ≤ 32 + 1 := natSize_le n.isLt (by decide)
    omega

theorem recipient_short : recipient.Short where
  toLawful := recipient_lawful
  length_lt
    | none => by decide
    | some address => (fixed_short (by decide)).length_lt address

end Codec

end Ethereum.Rlp
