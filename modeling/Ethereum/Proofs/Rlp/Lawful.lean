import Ethereum.Proofs.Rlp.Head
import Ethereum.Rlp.Scalar
import Mathlib.Data.List.Forall2

/-!
# Lawful formats

A format is lawful when it announces the length that it writes, writes something for every value,
reads back what it wrote whatever follows, and reads nothing else. The formats of larger values are
put together by `seq`, `imap`, `record` and `list`, and each of these keeps the laws; so a record is
lawful as soon as its fields are.

Records read their fields from all that follows their head and compare the lengths only afterwards.
That is sound because a lawful field ends where its own encoding ends: `record` shows that the bytes
used are those of the fields, so that a field which runs over the end of the record is refused.
-/

namespace Ethereum.Rlp.Codec

variable {α β : Type} {c : Codec α} {d : Codec β}

@[simp] theorem encode_seq (v : α × β) : (c.seq d).encode v = c.encode v.1 ++ d.encode v.2 := rfl

@[simp] theorem length_seq (v : α × β) : (c.seq d).length v = c.length v.1 + d.length v.2 := rfl

@[simp] theorem encode_imap (there : α → β) (back : β → α) (b : β) :
    (c.imap there back).encode b = c.encode (back b) := rfl

@[simp] theorem length_imap (there : α → β) (back : β → α) (b : β) :
    (c.imap there back).length b = c.length (back b) := rfl

@[simp] theorem length_record (v : α) :
    (Codec.record c).length v = Head.size (c.length v) + c.length v := rfl

@[simp] theorem length_list (items : List α) :
    (Codec.list c).length items = Head.size (c.payloadLength items) + c.payloadLength items := rfl

/-- The laws of a format. -/
structure Lawful (c : Codec α) : Prop where
  length_encode (a : α) : (c.encode a).length = c.length a
  encode_ne_nil (a : α) : c.encode a ≠ []
  /-- What was written is read back, and what follows it is left. -/
  decode_encode (a : α) (rest : Bytes) :
    c.length a < 2 ^ 64 → c.decode (c.encode a ++ rest) = .ok (a, rest)
  /-- Only what was written is read. -/
  eq_encode_of_decode {bs rest : Bytes} {a : α} :
    c.decode bs = .ok (a, rest) → bs = c.encode a ++ rest

/-! ## Values that stand one after the other -/

/-- A list with the announced lengths of its items is the list whose payload is the items. -/
theorem length_flatMap_of_length_encode (h : ∀ a, (c.encode a).length = c.length a)
    (items : List α) : (items.flatMap c.encode).length = c.payloadLength items := by
  induction items with
  | nil => rfl
  | cons a items ih =>
    rw [List.flatMap_cons, List.length_append, h, ih]
    rfl

theorem encode_list_of_length_encode (h : ∀ a, (c.encode a).length = c.length a)
    (items : List α) :
    (Codec.list c).encode items = encodeItem .list (items.flatMap c.encode) := by
  rw [encodeItem_list, encodeList, length_flatMap_of_length_encode h, Codec.list]

/-- A list has the announced length as soon as its items have. -/
theorem length_encode_list (h : ∀ a, (c.encode a).length = c.length a) (items : List α) :
    ((Codec.list c).encode items).length = (Codec.list c).length items := by
  rw [encode_list_of_length_encode h, encodeItem_list, length_encodeList,
    length_flatMap_of_length_encode h, length_list]

/-- Whether a byte string is read as a value, whatever follows it. It need not be what the format
writes. -/
def Reads (c : Codec α) (bs : Bytes) (a : α) : Prop :=
  bs ≠ [] ∧ ∀ rest, c.decode (bs ++ rest) = .ok (a, rest)

/-- No more values than bytes are read. -/
theorem Reads.length_le {forms : List Bytes} {items : List α}
    (h : List.Forall₂ c.Reads forms items) : items.length ≤ forms.flatten.length := by
  induction h with
  | nil => rfl
  | cons hfirst _ ih =>
    have hpos := List.length_pos_iff.mpr hfirst.1
    rw [List.length_cons, List.flatten_cons, List.length_append]
    omega

/-- Values that stand one after the other are read, with fuel for each of them. -/
theorem Reads.decodeAll {forms : List Bytes} {items : List α} (h : List.Forall₂ c.Reads forms items)
    {fuel : Nat} (hfuel : items.length ≤ fuel) (read : List α) :
    c.decodeAll fuel forms.flatten read = .ok (read.reverse ++ items) := by
  induction h generalizing fuel read with
  | nil => rw [List.flatten_nil, Codec.decodeAll, List.append_nil]
  | @cons form a forms items hfirst _ ih =>
    obtain ⟨fuel, rfl⟩ : ∃ k, fuel = k + 1 := ⟨fuel - 1, by rw [List.length_cons] at hfuel; omega⟩
    have hdec := hfirst.2 forms.flatten
    -- the reader looks for a first byte, which every value has
    obtain ⟨b, bs, hb⟩ := List.exists_cons_of_ne_nil hfirst.1
    rw [List.flatten_cons]
    rw [hb, List.cons_append] at hdec ⊢
    rw [Codec.decodeAll, hdec]
    dsimp only
    rw [ih (by rw [List.length_cons] at hfuel; omega)]
    simp

/-- Values that stand one after the other in a list are read as that list. -/
theorem Reads.list {forms : List Bytes} {items : List α} (h : List.Forall₂ c.Reads forms items)
    (hsize : forms.flatten.length < 2 ^ 64) :
    (Codec.list c).Reads (encodeItem .list forms.flatten) items := by
  refine ⟨encodeItem_ne_nil _ _, fun rest => ?_⟩
  have htake := takePayload_encodeItem .list rest hsize
  have hall := Reads.decodeAll h (Reads.length_le h) []
  exact bind_eq_ok_iff.mpr ⟨_, htake, bind_eq_ok_iff.mpr ⟨_, hall, rfl⟩⟩

namespace Lawful

/-- An encoding can be told from what follows it. -/
theorem encode_append_inj (hc : c.Lawful) {a b : α} {s t : Bytes} (ha : c.length a < 2 ^ 64)
    (hb : c.length b < 2 ^ 64) (h : c.encode a ++ s = c.encode b ++ t) : a = b ∧ s = t := by
  have hdec := hc.decode_encode a s ha
  rw [h, hc.decode_encode b t hb, Except.ok.injEq, Prod.mk.injEq] at hdec
  exact ⟨hdec.1.symm, hdec.2.symm⟩

/-- A value can be told from its encoding. -/
theorem encode_inj (hc : c.Lawful) {a b : α} (ha : c.length a < 2 ^ 64)
    (h : c.encode a = c.encode b) : a = b := by
  have hlen := congrArg List.length h
  rw [hc.length_encode, hc.length_encode] at hlen
  exact (hc.encode_append_inj (s := []) (t := []) ha (hlen ▸ ha) (by rw [h])).1

/-- Two values, one after the other. -/
theorem seq (hc : c.Lawful) (hd : d.Lawful) : (c.seq d).Lawful where
  length_encode v := by
    rw [encode_seq, length_seq, List.length_append, hc.length_encode, hd.length_encode]
  encode_ne_nil v h := hc.encode_ne_nil v.1 (List.append_eq_nil_iff.mp h).1
  decode_encode v rest hlen := by
    rw [length_seq] at hlen
    have ha := hc.decode_encode v.1 (d.encode v.2 ++ rest) (by omega)
    have hb := hd.decode_encode v.2 rest (by omega)
    rw [encode_seq, List.append_assoc]
    exact bind_eq_ok_iff.mpr ⟨_, ha, bind_eq_ok_iff.mpr ⟨_, hb, rfl⟩⟩
  eq_encode_of_decode {bs rest v} h := by
    obtain ⟨⟨a, mid⟩, ha, h⟩ := bind_eq_ok_iff.mp h
    obtain ⟨⟨b, rest'⟩, hb, h⟩ := bind_eq_ok_iff.mp h
    obtain ⟨rfl, rfl⟩ := Prod.mk.inj (Except.ok.inj h)
    obtain rfl := hd.eq_encode_of_decode hb
    rw [hc.eq_encode_of_decode ha, encode_seq, List.append_assoc]

/-- The same encodings under other names. -/
theorem imap (hc : c.Lawful) {there : α → β} {back : β → α} (hback : ∀ a, back (there a) = a)
    (hthere : ∀ b, there (back b) = b) : (c.imap there back).Lawful where
  length_encode b := hc.length_encode (back b)
  encode_ne_nil b := hc.encode_ne_nil (back b)
  decode_encode b rest hlen := by
    have ha := hc.decode_encode (back b) rest hlen
    refine bind_eq_ok_iff.mpr ⟨_, ha, ?_⟩
    dsimp only
    rw [hthere]
  eq_encode_of_decode {bs rest b} h := by
    obtain ⟨⟨a, rest'⟩, ha, h⟩ := bind_eq_ok_iff.mp h
    obtain ⟨rfl, rfl⟩ := Prod.mk.inj (Except.ok.inj h)
    rw [hc.eq_encode_of_decode ha, encode_imap, hback]

/-! ## Records -/

/-- A record is the list whose payload is its fields. -/
theorem encode_record (hc : c.Lawful) (v : α) :
    (Codec.record c).encode v = encodeItem .list (c.encode v) := by
  rw [encodeItem_list, encodeList, hc.length_encode, Codec.record]

/-- A list item with a fixed sequence of fields. -/
theorem record (hc : c.Lawful) : (Codec.record c).Lawful where
  length_encode v := by
    rw [hc.encode_record, encodeItem_list, length_encodeList, hc.length_encode, length_record]
  encode_ne_nil v := by
    rw [hc.encode_record]
    exact encodeItem_ne_nil _ _
  decode_encode v rest hlen := by
    have hfields : c.length v < 2 ^ 64 := by
      rw [length_record] at hlen
      omega
    have hhead := Head.decode_encodeItem .list rest (hc.length_encode v ▸ hfields)
    rw [hc.encode_record]
    refine bind_eq_ok_iff.mpr ⟨_, hhead, ?_⟩
    dsimp only
    rw [if_neg (by simp)]
    refine bind_eq_ok_iff.mpr ⟨_, hc.decode_encode v rest hfields, ?_⟩
    dsimp only
    rw [if_pos (by rw [List.length_append, Nat.add_sub_cancel])]
  eq_encode_of_decode {bs rest v} h := by
    obtain ⟨⟨⟨kind, n⟩, body⟩, hhead, h⟩ := bind_eq_ok_iff.mp h
    dsimp only at h
    split at h
    · simp at h
    next hkind =>
    obtain ⟨⟨a, rest'⟩, ha, h⟩ := bind_eq_ok_iff.mp h
    dsimp only at h
    split at h
    · next hused =>
      obtain ⟨rfl, rfl⟩ := Prod.mk.inj (Except.ok.inj h)
      obtain ⟨rfl, -, -⟩ := Head.decode_eq_ok_iff.mp hhead
      obtain rfl := hc.eq_encode_of_decode ha
      -- the bytes used are those of the fields, so the head announces exactly the fields
      rw [List.length_append, Nat.add_sub_cancel] at hused
      obtain rfl : kind = .list := by simpa using hkind
      rw [hc.encode_record, encodeItem, Head.before_list, Head.before_list, ← hused,
        List.append_assoc]
    · simp at h

/-- A list item is read as a record only if its payload is exactly the fields, whatever follows. -/
theorem eq_encode_of_decode_record (hc : c.Lawful) {payload rest rest' : Bytes} {v : α}
    (hsize : payload.length < 2 ^ 64)
    (h : (Codec.record c).decode (encodeItem .list payload ++ rest) = .ok (v, rest')) :
    payload = c.encode v ∧ rest = rest' := by
  obtain ⟨⟨head, body⟩, hhead, h⟩ := bind_eq_ok_iff.mp h
  rw [Head.decode_encodeItem .list rest hsize] at hhead
  obtain ⟨rfl, rfl⟩ := Prod.mk.inj (Except.ok.inj hhead)
  dsimp only at h
  rw [if_neg (by simp)] at h
  obtain ⟨⟨a, rest''⟩, ha, h⟩ := bind_eq_ok_iff.mp h
  dsimp only at h
  split at h
  · next hused =>
    obtain ⟨rfl, rfl⟩ := Prod.mk.inj (Except.ok.inj h)
    have hbody := hc.eq_encode_of_decode ha
    rw [hbody, List.length_append, Nat.add_sub_cancel] at hused
    exact List.append_inj hbody hused.symm
  · simp at h

/-! ## Lists -/

theorem length_flatMap_encode (hc : c.Lawful) (items : List α) :
    (items.flatMap c.encode).length = c.payloadLength items :=
  length_flatMap_of_length_encode hc.length_encode items

theorem length_le_payloadLength {items : List α} {a : α} (h : a ∈ items) :
    c.length a ≤ c.payloadLength items := by
  induction items with
  | nil => simp at h
  | cons b items ih =>
    show _ ≤ c.length b + c.payloadLength items
    rcases List.mem_cons.mp h with rfl | h
    · omega
    · have hle := ih h
      omega

/-- What is written of a value is read as that value. -/
theorem reads_encode (hc : c.Lawful) {a : α} (hlen : c.length a < 2 ^ 64) :
    c.Reads (c.encode a) a :=
  ⟨hc.encode_ne_nil a, fun rest => hc.decode_encode a rest hlen⟩

/-- Items that are read one after the other were written so. -/
theorem eq_flatMap_encode_of_decodeAll (hc : c.Lawful) {fuel : Nat} {bs : Bytes}
    {read items : List α} (h : c.decodeAll fuel bs read = .ok items) :
    ∃ more, items = read.reverse ++ more ∧ bs = more.flatMap c.encode := by
  fun_induction Codec.decodeAll c fuel bs read with
  | case1 fuel read =>
    obtain rfl := Except.ok.inj h
    exact ⟨[], by simp, rfl⟩
  | case2 => simp at h
  | case3 fuel b bs read a rest hdec ih =>
    obtain ⟨more, rfl, rfl⟩ := ih h
    refine ⟨a :: more, by simp, ?_⟩
    rw [List.flatMap_cons]
    exact hc.eq_encode_of_decode hdec
  | case4 => simp at h

theorem encode_list (hc : c.Lawful) (items : List α) :
    (Codec.list c).encode items = encodeItem .list (items.flatMap c.encode) :=
  encode_list_of_length_encode hc.length_encode items

/-- A list item of any number of values. -/
theorem list (hc : c.Lawful) : (Codec.list c).Lawful where
  length_encode items := length_encode_list hc.length_encode items
  encode_ne_nil items := by
    rw [hc.encode_list]
    exact encodeItem_ne_nil _ _
  decode_encode items rest hlen := by
    have hpayload : c.payloadLength items < 2 ^ 64 := by
      rw [length_list] at hlen
      omega
    have hitems : ∀ a ∈ items, c.length a < 2 ^ 64 :=
      fun a ha => Nat.lt_of_le_of_lt (length_le_payloadLength ha) hpayload
    have hreads : List.Forall₂ c.Reads (items.map c.encode) items :=
      List.forall₂_map_left_iff.mpr <|
        List.forall₂_same.mpr fun a ha => hc.reads_encode (hitems a ha)
    rw [hc.encode_list, List.flatMap_def]
    rw [← hc.length_flatMap_encode, List.flatMap_def] at hpayload
    exact (Reads.list hreads hpayload).2 rest
  eq_encode_of_decode {bs rest items} h := by
    obtain ⟨⟨payload, rest'⟩, htake, h⟩ := bind_eq_ok_iff.mp h
    obtain ⟨read, hall, h⟩ := bind_eq_ok_iff.mp h
    obtain ⟨rfl, rfl⟩ := Prod.mk.inj (Except.ok.inj h)
    obtain ⟨more, rfl, rfl⟩ := hc.eq_flatMap_encode_of_decodeAll hall
    rw [hc.encode_list]
    exact (takePayload_eq_ok_iff.mp htake).1

end Lawful

end Ethereum.Rlp.Codec
