import Ethereum.Proofs.Rlp.Scalar
import Ethereum.Text.Hex
import Mathlib.Data.List.TakeWhile

/-!
# What hexadecimal text spells

A text spells a byte string when it is its digits, in either case. That is a matter of characters,
while a reader looks at the bytes of the text: a character that is stored in several bytes has none
that is a digit, so the two views agree, and a reader accepts exactly the texts that spell a byte
string. Blanks at the two ends are no part of a text that a user gives. What is written is in lower
case, and said by the sixteen digits alone.

## Main statements

* `writes_iff` — the digits that a byte string is written with.
* `decodeDigits_eq_ok_iff` — digits are read as the bytes that they spell.
* `decodeFixed_eq_ok_iff`, `decodeInput_eq_ok_iff` — the texts that the two grammars accept.
* `decodeInput_encode` — what is written is read back, between any blanks.
-/

namespace Ethereum

namespace Text

/-! ## Characters as bytes -/

/-- A character below `0x80` is stored as the byte of its number. -/
theorem utf8EncodeChar_of_lt {c : Char} (h : c.toNat < 0x80) :
    String.utf8EncodeChar c = [UInt8.ofNat c.toNat] := by
  have hle : c.val.toNat ≤ 127 := Nat.le_of_lt_succ h
  rw [String.utf8EncodeChar, if_pos hle]
  rfl

/-- A character from `0x80` on is stored in bytes of which the first is no character by itself. -/
theorem exists_utf8EncodeChar_of_le {c : Char} (h : 0x80 ≤ c.toNat) :
    ∃ b rest, String.utf8EncodeChar c = b :: rest ∧ 0x80 ≤ b.toNat := by
  have hgt : ¬ c.val.toNat ≤ 127 := Nat.not_le_of_lt h
  rw [String.utf8EncodeChar, if_neg hgt]
  split_ifs
  all_goals
    refine ⟨_, _, rfl, ?_⟩
    rw [UInt8.toNat_ofNat']
    omega

/-- The bytes of a text store that text. -/
theorem ofUtf8?_toUtf8 (text : String) : ofUtf8? (toUtf8 text.toList) = some text := by
  have hbytes : ByteArray.mk (toUtf8 text.toList).toArray = text.toByteArray := by
    rw [ByteArray.ext_iff, ← String.utf8Encode_toList, List.utf8Encode, List.data_toByteArray]
    rfl
  rw [ofUtf8?, hbytes, String.fromUTF8?, dif_pos text.isValidUTF8]
  rfl

/-! ## Blanks -/

/-- Blanks around a text without blanks are taken off. -/
theorem trim_append_append {before text after : List Char} (hbefore : ∀ c ∈ before, isBlank c)
    (hafter : ∀ c ∈ after, isBlank c) (htext : ∀ c ∈ text, isBlank c = false) :
    trim (before ++ text ++ after) = text := by
  rw [trim, List.append_assoc, List.dropWhile_append_of_pos hbefore]
  cases text with
  | nil =>
    -- the blanks on both sides are then all there is
    rw [List.nil_append, List.dropWhile_eq_nil_iff.mpr hafter]
    rfl
  | cons c text =>
    have hlast : ∀ d ∈ (c :: text).reverse, ¬ isBlank d := fun d hd => by
      simp [htext d (List.mem_reverse.mp hd)]
    rw [List.cons_append, List.dropWhile_cons_of_neg (by simp [htext c]), ← List.cons_append,
      List.reverse_append,
      List.dropWhile_append_of_pos fun d hd => hafter d (List.mem_reverse.mp hd),
      List.dropWhile_eq_self_iff.mpr fun hl => hlast _ (List.getElem_mem hl), List.reverse_reverse]

end Text

namespace Hex

open Text

/-! ## Digits -/

/-- Whether a text is the digits of a byte string, in either case. -/
def Spells (text : List Char) (bs : Bytes) : Prop := text.map Char.toLower = digits bs

instance (text : List Char) (bs : Bytes) : Decidable (Spells text bs) :=
  inferInstanceAs (Decidable (_ = _))

theorem hexDigit_inj {v w : Nat} (hv : v < 16) (hw : w < 16) (h : hexDigit v = hexDigit w) :
    v = w := by
  have hall : ∀ v < 16, ∀ w < 16, hexDigit v = hexDigit w → v = w := by decide
  exact hall v hv w hw h

/-- No character but one of a single byte is a digit, in either case. -/
theorem lt_of_toLower_eq_hexDigit {c : Char} {v : Nat} (hv : v < 16) (h : c.toLower = hexDigit v) :
    c.toNat < 0x80 := by
  have hall : ∀ v < 16, (hexDigit v).toNat < 0x80 := by decide
  by_cases hupper : c.val ≥ 'A'.val ∧ c.val ≤ 'Z'.val
  · have hle : c.val.toNat ≤ 90 := UInt32.le_iff_toNat_le.mp hupper.2
    exact Nat.lt_of_le_of_lt hle (by decide)
  · have hsame : c.toLower = c := dif_neg hupper
    rw [← hsame, h]
    exact hall v hv

/-- The byte of a character has the value of the digit that the character is, in either case. -/
theorem valueOf?_eq_some_iff {c : Char} (h : c.toNat < 0x80) {v : Nat} :
    valueOf? (UInt8.ofNat c.toNat) = some v ↔ v < 16 ∧ c.toLower = hexDigit v := by
  have hbound : ∀ n < 0x80, ∀ v ∈ valueOf? (UInt8.ofNat n),
      v < 16 ∧ (Char.ofNat n).toLower = hexDigit v := by decide
  have hvalue : ∀ n < 0x80, ∀ v < 16, (Char.ofNat n).toLower = hexDigit v →
      valueOf? (UInt8.ofNat n) = some v := by decide +kernel
  constructor
  · intro hv
    simpa using hbound c.toNat h v hv
  · rintro ⟨hv, hlower⟩
    exact hvalue c.toNat h v hv (by simpa using hlower)

theorem valueOf?_of_le {b : UInt8} (h : 0x80 ≤ b.toNat) : valueOf? b = none := by
  rw [valueOf?, if_neg (by omega), if_neg (by omega), if_neg (by omega)]

/-- A character is a digit and stored as one byte with its value, or its first byte has none. -/
theorem digit_cases (c : Char) :
    (∃ b v, String.utf8EncodeChar c = [b] ∧ valueOf? b = some v ∧ v < 16 ∧
      c.toLower = hexDigit v) ∨
    ∃ b rest, String.utf8EncodeChar c = b :: rest ∧ valueOf? b = none ∧
      ∀ v < 16, c.toLower ≠ hexDigit v := by
  by_cases hc : c.toNat < 0x80
  · cases hvalue : valueOf? (UInt8.ofNat c.toNat) with
    | some v =>
      obtain ⟨hv, hlower⟩ := (valueOf?_eq_some_iff hc).mp hvalue
      exact .inl ⟨_, v, utf8EncodeChar_of_lt hc, hvalue, hv, hlower⟩
    | none =>
      refine .inr ⟨_, [], utf8EncodeChar_of_lt hc, hvalue, fun v hv hlower => ?_⟩
      rw [(valueOf?_eq_some_iff hc).mpr ⟨hv, hlower⟩] at hvalue
      simp at hvalue
  · obtain ⟨b, rest, hbytes, hb⟩ := exists_utf8EncodeChar_of_le (c := c) (by omega)
    exact .inr ⟨b, rest, hbytes, valueOf?_of_le hb,
      fun v hv hlower => hc (lt_of_toLower_eq_hexDigit hv hlower)⟩

/-! ## Digits of a byte string -/

/-- The values of the digits of a byte string. -/
def digitValues (bs : Bytes) : List Nat := bs.flatMap fun b => [b.toNat / 16, b.toNat % 16]

theorem digitValues_cons (b : UInt8) (bs : Bytes) :
    digitValues (b :: bs) = b.toNat / 16 :: b.toNat % 16 :: digitValues bs := rfl

/-- Two digits make one byte. -/
theorem eq_ofNat_iff {b : UInt8} {v w : Nat} (hv : v < 16) (hw : w < 16) :
    b = UInt8.ofNat (16 * v + w) ↔ v = b.toNat / 16 ∧ w = b.toNat % 16 := by
  rw [← UInt8.toNat_inj, Rlp.toNat_ofNat_of_lt (by omega)]
  omega

theorem digits_eq_map_digitValues (bs : Bytes) : digits bs = (digitValues bs).map hexDigit := by
  rw [digits, digitValues, List.map_flatMap]
  rfl

theorem length_digitValues (bs : Bytes) : (digitValues bs).length = 2 * bs.length := by
  induction bs with
  | nil => rfl
  | cons b bs ih =>
    rw [digitValues_cons, List.length_cons, List.length_cons, ih, List.length_cons]
    omega

theorem lt_of_mem_digitValues {bs : Bytes} {v : Nat} (h : v ∈ digitValues bs) : v < 16 := by
  obtain ⟨b, -, hv⟩ := List.mem_flatMap.mp h
  have hb : b.toNat < 256 := b.toNat_lt
  simp only [List.mem_cons, List.not_mem_nil, or_false] at hv
  omega

/-- The bytes of a text have the values of some digits exactly when the text is these digits. -/
theorem map_valueOf?_toUtf8_iff {text : List Char} {values : List Nat}
    (hvalues : ∀ v ∈ values, v < 16) :
    (toUtf8 text).map valueOf? = values.map some ↔
      text.map Char.toLower = values.map hexDigit := by
  induction text generalizing values with
  | nil => cases values <;> simp [toUtf8]
  | cons c text ih =>
    have hbytes : toUtf8 (c :: text) = String.utf8EncodeChar c ++ toUtf8 text := rfl
    cases values with
    | nil => simp [hbytes, String.utf8EncodeChar_ne_nil]
    | cons w values =>
      obtain ⟨hw, hvalues⟩ := List.forall_mem_cons.mp hvalues
      rcases digit_cases c with ⟨b, v, hc, hb, hv, hlower⟩ | ⟨b, rest, hc, hb, hlower⟩
      · have hdigit : v = w ↔ hexDigit v = hexDigit w :=
          ⟨congrArg hexDigit, hexDigit_inj hv hw⟩
        simp [hbytes, hc, hb, hlower, ih hvalues, hdigit]
      · simp [hbytes, hc, hb, hlower w hw]

/-- A text spells a byte string exactly when its bytes have the values of the digits. -/
theorem spells_iff {text : List Char} {bs : Bytes} :
    Spells text bs ↔ (toUtf8 text).map valueOf? = (digitValues bs).map some := by
  rw [Spells, digits_eq_map_digitValues]
  exact (map_valueOf?_toUtf8_iff fun v => lt_of_mem_digitValues).symm

theorem spells_digits (bs : Bytes) : Spells (digits bs) bs := by
  have hall : ∀ v < 16, (hexDigit v).toLower = hexDigit v := by decide
  rw [Spells, digits_eq_map_digitValues, List.map_map]
  exact List.map_congr_left fun v hv => hall v (lt_of_mem_digitValues hv)

/-- A text that spells a byte string has two digits for each byte. -/
theorem Spells.length_eq {text : List Char} {bs : Bytes} (h : Spells text bs) :
    text.length = 2 * bs.length := by
  have hlen := congrArg List.length h
  rwa [List.length_map, digits_eq_map_digitValues, List.length_map, length_digitValues] at hlen

/-- A text that spells a byte string has two bytes for each byte. -/
theorem Spells.length_toUtf8 {text : List Char} {bs : Bytes} (h : Spells text bs) :
    (toUtf8 text).length = 2 * bs.length := by
  have hlen := congrArg List.length (spells_iff.mp h)
  rwa [List.length_map, List.length_map, length_digitValues] at hlen

/-! ## Reading digits -/

theorem lt_of_valueOf?_eq_some {b : UInt8} {v : Nat} (h : valueOf? b = some v) : v < 16 := by
  rw [valueOf?] at h
  split_ifs at h <;> obtain rfl := Option.some.inj h <;> omega

/-- Pairs of digits are read as the bytes that they are the digits of. -/
theorem decodePairs_eq_ok_iff {input read bs : Bytes} {position : Nat} :
    decodePairs input position read = .ok bs ↔
      ∃ more, bs = read.reverse ++ more ∧ input.map valueOf? = (digitValues more).map some := by
  fun_induction decodePairs input position read with
  | case1 position read =>
    constructor
    · intro h
      obtain rfl := Except.ok.inj h
      exact ⟨[], (List.append_nil _).symm, rfl⟩
    · rintro ⟨_ | ⟨b, more⟩, rfl, hmore⟩
      · rw [List.append_nil]
      · simp [digitValues] at hmore
  | case2 b position read =>
    refine iff_of_false (by simp) ?_
    rintro ⟨_ | ⟨b', more⟩, -, hmore⟩ <;> simp [digitValues] at hmore
  | case3 hi lo rest position read v w hlo hhi ih =>
    have hbyte : ∀ b : UInt8, b = UInt8.ofNat (16 * v + w) ↔ v = b.toNat / 16 ∧ w = b.toNat % 16 :=
      fun b => eq_ofNat_iff (lt_of_valueOf?_eq_some hhi) (lt_of_valueOf?_eq_some hlo)
    rw [ih, List.map_cons, List.map_cons, hhi, hlo]
    constructor
    · rintro ⟨more, rfl, hmore⟩
      obtain ⟨hdiv, hmod⟩ := (hbyte _).mp rfl
      refine ⟨UInt8.ofNat (16 * v + w) :: more, by simp, ?_⟩
      rw [hmore, digitValues_cons, ← hdiv, ← hmod, List.map_cons, List.map_cons]
    · rintro ⟨_ | ⟨b, more⟩, rfl, hmore⟩
      · simp [digitValues] at hmore
      · rw [digitValues_cons, List.map_cons, List.map_cons, List.cons.injEq, List.cons.injEq,
          Option.some.injEq, Option.some.injEq] at hmore
        obtain ⟨hdiv, hmod, hrest⟩ := hmore
        obtain rfl := (hbyte b).mpr ⟨hdiv, hmod⟩
        exact ⟨more, by simp, hrest⟩
  | case4 hi lo rest position read hhi =>
    refine iff_of_false (by simp) ?_
    rintro ⟨_ | ⟨b, more⟩, -, hmore⟩ <;> simp [digitValues, hhi] at hmore
  | case5 hi lo rest position read v hlo hhi =>
    refine iff_of_false (by simp) ?_
    rintro ⟨_ | ⟨b, more⟩, -, hmore⟩ <;> simp [digitValues, hlo] at hmore

theorem decodePairs_toUtf8_eq_ok_iff {text : List Char} {bs : Bytes} :
    decodePairs (toUtf8 text) 0 [] = .ok bs ↔ Spells text bs := by
  rw [decodePairs_eq_ok_iff, spells_iff]
  simp

/-- Digits are read as the bytes that they spell. -/
theorem decodeDigits_eq_ok_iff {text : List Char} {bs : Bytes} :
    decodeDigits (toUtf8 text) = .ok bs ↔ Spells text bs := by
  rw [decodeDigits]
  split
  · next hodd =>
    refine iff_of_false (by simp) fun hspells => ?_
    rw [hspells.length_toUtf8] at hodd
    omega
  · exact decodePairs_toUtf8_eq_ok_iff

/-! ## The two grammars -/

/-- A marker is two bytes. -/
theorem length_toUtf8_dropMarker (text : List Char) :
    (toUtf8 (dropMarker text)).length % 2 = (toUtf8 text).length % 2 := by
  fun_cases dropMarker text with
  | case1 rest =>
    show _ = ((toUtf8 rest).length + 1 + 1) % 2
    omega
  | case2 rest =>
    show _ = ((toUtf8 rest).length + 1 + 1) % 2
    omega
  | case3 => rfl

/-- A fixed string is read from the texts that spell it behind a marker or without one. -/
theorem decodeFixed_eq_ok_iff {n : Nat} {text : List Char} {value : FixedBytes n} :
    decodeFixed n text = .ok value ↔ Spells (dropMarker text) value.toBytes := by
  rw [decodeFixed, ← length_toUtf8_dropMarker]
  constructor
  · intro h
    split_ifs at h
    obtain ⟨bs, hbs, h⟩ := bind_eq_ok_iff.mp h
    split at h
    · next own hown =>
      obtain rfl := Except.ok.inj h
      obtain rfl := Rlp.Codec.ofBytes?_eq_some_iff.mp hown
      exact decodePairs_toUtf8_eq_ok_iff.mp hbs
    · simp at h
  · intro hspells
    have hlen := hspells.length_toUtf8
    rw [value.length_toBytes] at hlen
    rw [if_neg (by omega), if_neg (by omega)]
    refine bind_eq_ok_iff.mpr ⟨_, decodePairs_toUtf8_eq_ok_iff.mpr hspells, ?_⟩
    rw [Rlp.Codec.ofBytes?_eq_some_iff.mpr rfl]

/-- Bytes are read from the texts that spell them between blanks, behind `0x` or not. -/
theorem decodeInput_eq_ok_iff {text : List Char} {bs : Bytes} :
    decodeInput text = .ok bs ↔ Spells (dropLowerMarker (trim text)) bs :=
  decodeDigits_eq_ok_iff

/-- The sixteen digits, each at the place of its value. -/
def alphabet : List Char := "0123456789abcdef".toList

/-- Whether a text is the lower-case digits of a byte string: for each byte the digit of its high
half, and then that of its low half. -/
def Writes (text : List Char) (bs : Bytes) : Prop :=
  text.map some = bs.flatMap fun b => [alphabet[b.toNat / 16]?, alphabet[b.toNat % 16]?]

/-- A byte string is written with its digits. -/
theorem writes_iff {text : List Char} {bs : Bytes} : Writes text bs ↔ text = digits bs := by
  have hdigit : ∀ v < 16, alphabet[v]? = some (hexDigit v) := by decide
  have hdigits : (digits bs).map some =
      bs.flatMap fun b => [alphabet[b.toNat / 16]?, alphabet[b.toNat % 16]?] := by
    rw [digits, List.map_flatMap]
    refine List.flatMap_congr fun b _ => ?_
    have hb : b.toNat < 256 := b.toNat_lt
    rw [hdigit _ (by omega), hdigit _ (by omega)]
    rfl
  rw [Writes, ← hdigits]
  exact List.map_inj_right fun _ _ => Option.some.inj

/-- What is written is the letter of a marker and digits. -/
theorem eq_of_mem_encode {bs : Bytes} {c : Char} (h : c ∈ (encode bs).toList) :
    c = 'x' ∨ ∃ v < 16, c = hexDigit v := by
  rw [encode, String.toList_ofList, digits_eq_map_digitValues] at h
  rcases List.mem_cons.mp h with rfl | h
  · exact .inr ⟨0, by decide, rfl⟩
  rcases List.mem_cons.mp h with rfl | h
  · exact .inl rfl
  · obtain ⟨v, hv, rfl⟩ := List.mem_map.mp h
    exact .inr ⟨v, lt_of_mem_digitValues hv, rfl⟩

/-- No digit and no part of a marker is a blank. -/
theorem isBlank_of_mem_encode {bs : Bytes} {c : Char} (h : c ∈ (encode bs).toList) :
    isBlank c = false := by
  have hall : ∀ v < 16, isBlank (hexDigit v) = false := by decide
  rcases eq_of_mem_encode h with rfl | ⟨v, hv, rfl⟩
  · decide
  · exact hall v hv

/-- What is written is read back, between any blanks. -/
theorem decodeInput_encode (bs : Bytes) {before after : List Char}
    (hbefore : ∀ c ∈ before, isBlank c) (hafter : ∀ c ∈ after, isBlank c) :
    decodeInput (before ++ (encode bs).toList ++ after) = .ok bs := by
  rw [decodeInput_eq_ok_iff, trim_append_append hbefore hafter fun c => isBlank_of_mem_encode,
    encode, String.toList_ofList]
  exact spells_digits bs

end Hex

end Ethereum
