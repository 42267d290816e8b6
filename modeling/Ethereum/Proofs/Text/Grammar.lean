import Ethereum.Proofs.Text.Hex

/-!
# The texts that the two grammars accept

What a reader takes off a text before it looks at digits, a marker or the blanks around it, is
described here by what the text is made of. No digit is a blank or the letter of a marker, so a text
is made of these parts in one way only, and that is the way in which the reader takes it apart.

## Main statements

* `exists_spells` — an even number of digits spells a byte string.
* `exists_decodeFixed_iff` — a marker of either case and a fixed number of digits.
* `isInput_iff`, `exists_decodeInput_iff` — blanks, `0x` and digits, and blanks again.
-/

namespace Ethereum

namespace Text

/-- A text is the blanks in front of it, the text without its blanks, and the blanks behind it. -/
theorem exists_eq_append_trim (text : List Char) :
    ∃ before after, text = before ++ trim text ++ after ∧ (∀ c ∈ before, isBlank c) ∧
      ∀ c ∈ after, isBlank c := by
  -- the blanks behind are in front of the reversed rest
  have hrest : (text.dropWhile isBlank).reverse.takeWhile isBlank ++
      (text.dropWhile isBlank).reverse.dropWhile isBlank = (text.dropWhile isBlank).reverse :=
    List.takeWhile_append_dropWhile
  refine ⟨text.takeWhile isBlank, ((text.dropWhile isBlank).reverse.takeWhile isBlank).reverse, ?_,
    fun c hc => List.mem_takeWhile_imp hc, fun c hc =>
      List.mem_takeWhile_imp (List.mem_reverse.mp hc)⟩
  rw [trim, List.append_assoc, ← List.reverse_append, hrest, List.reverse_reverse,
    List.takeWhile_append_dropWhile]

end Text

namespace Hex

open Text

variable {text digits : List Char} {markers : List (List Char)} {drop : List Char → List Char}

/-! ## Digits -/

/-- Whether a character is a hexadecimal digit of either case. -/
def isDigit (c : Char) : Bool :=
  ('0' ≤ c && c ≤ '9') || ('a' ≤ c && c ≤ 'f') || ('A' ≤ c && c ≤ 'F')

theorem lt_of_isDigit {c : Char} (h : isDigit c) : c.toNat < 0x80 := by
  have hle : ∀ d : Char, c ≤ d → c.toNat ≤ d.toNat := fun _ => UInt32.le_iff_toNat_le.mp
  simp only [isDigit, Bool.or_eq_true, Bool.and_eq_true, decide_eq_true_eq] at h
  rcases h with (⟨-, h⟩ | ⟨-, h⟩) | ⟨-, h⟩ <;> exact Nat.lt_of_le_of_lt (hle _ h) (by decide)

/-- A digit of either case is one of the sixteen that are written. -/
theorem isDigit_iff {c : Char} : isDigit c ↔ ∃ v < 16, c.toLower = hexDigit v := by
  have hall : ∀ n < 0x80, isDigit (Char.ofNat n) ↔
      ∃ v < 16, (Char.ofNat n).toLower = hexDigit v := by decide +kernel
  by_cases hc : c.toNat < 0x80
  · simpa using hall c.toNat hc
  · refine iff_of_false (fun h => hc (lt_of_isDigit h)) ?_
    rintro ⟨v, hv, hlower⟩
    exact hc (lt_of_toLower_eq_hexDigit hv hlower)

theorem isBlank_of_isDigit {c : Char} (h : isDigit c) : isBlank c = false := by
  have hall : ∀ n < 0x80, isDigit (Char.ofNat n) → isBlank (Char.ofNat n) = false := by
    decide +kernel
  simpa using hall c.toNat (lt_of_isDigit h) (by simpa using h)

/-- What spells a byte string are digits. -/
theorem Spells.isDigit {bs : Bytes} (h : Spells text bs) {c : Char} (hc : c ∈ text) :
    Hex.isDigit c := by
  have hmem : c.toLower ∈ (digitValues bs).map hexDigit := by
    rw [← digits_eq_map_digitValues, ← h]
    exact List.mem_map_of_mem hc
  obtain ⟨v, hv, hlower⟩ := List.mem_map.mp hmem
  exact isDigit_iff.mpr ⟨v, lt_of_mem_digitValues hv, hlower.symm⟩

/-- An even number of digits spells a byte string, two digits for each byte. -/
theorem exists_spells : ∀ {text : List Char}, text.length % 2 = 0 → (∀ c ∈ text, isDigit c) →
    ∃ bs, Spells text bs
  | [], _, _ => ⟨[], rfl⟩
  | [_], heven, _ => by simp at heven
  | hi :: lo :: rest, heven, hdigits => by
    obtain ⟨v, hv, hhi⟩ := isDigit_iff.mp (hdigits hi (by simp))
    obtain ⟨w, hw, hlo⟩ := isDigit_iff.mp (hdigits lo (by simp))
    rw [List.length_cons, List.length_cons] at heven
    have hrest : ∃ bs, Spells rest bs :=
      exists_spells (by omega) fun c hc => hdigits c (by simp [hc])
    obtain ⟨bs, hbs⟩ := hrest
    obtain ⟨hdiv, hmod⟩ := (eq_ofNat_iff hv hw).mp rfl
    refine ⟨UInt8.ofNat (16 * v + w) :: bs, ?_⟩
    rw [Spells, digits_eq_map_digitValues] at hbs ⊢
    rw [digitValues_cons, ← hdiv, ← hmod, List.map_cons, List.map_cons, List.map_cons,
      List.map_cons, hhi, hlo, hbs]

/-! ## Markers -/

/-- Whether a text is the given digits, behind one of the markers or behind none. -/
def HasDigits (markers : List (List Char)) (digits text : List Char) : Prop :=
  (∃ marker ∈ [] :: markers, text = marker ++ digits) ∧ ∀ c ∈ digits, isDigit c

/-- Whether a function takes one of the markers off a text that starts with one, and leaves every
other text as it is. -/
structure Strips (markers : List (List Char)) (drop : List Char → List Char) : Prop where
  split (text : List Char) : ∃ marker ∈ [] :: markers, text = marker ++ drop text
  drop_append {marker : List Char} (h : marker ∈ markers) (rest : List Char) :
    drop (marker ++ rest) = rest
  drop_digits {digits : List Char} (h : ∀ c ∈ digits, isDigit c) : drop digits = digits

theorem dropMarker_strips : Strips [['0', 'x'], ['0', 'X']] dropMarker where
  split text := by
    fun_cases dropMarker text with
    | case1 rest => exact ⟨['0', 'x'], by simp, rfl⟩
    | case2 rest => exact ⟨['0', 'X'], by simp, rfl⟩
    | case3 => exact ⟨[], by simp, rfl⟩
  drop_append {marker} h rest := by
    rcases List.mem_pair.mp h with rfl | rfl <;> rfl
  drop_digits {digits} h := by
    fun_cases dropMarker digits with
    | case1 rest => exact absurd (h 'x' (by simp)) (by decide)
    | case2 rest => exact absurd (h 'X' (by simp)) (by decide)
    | case3 => rfl

theorem dropLowerMarker_strips : Strips [['0', 'x']] dropLowerMarker where
  split text := by
    fun_cases dropLowerMarker text with
    | case1 rest => exact ⟨['0', 'x'], by simp, rfl⟩
    | case2 => exact ⟨[], by simp, rfl⟩
  drop_append {marker} h rest := by
    obtain rfl := List.mem_singleton.mp h
    rfl
  drop_digits {digits} h := by
    fun_cases dropLowerMarker digits with
    | case1 rest => exact absurd (h 'x' (by simp)) (by decide)
    | case2 => rfl

/-- The digits of a text are what is left of it behind its marker. -/
theorem Strips.hasDigits_iff (h : Strips markers drop) :
    HasDigits markers digits text ↔ drop text = digits ∧ ∀ c ∈ digits, isDigit c := by
  refine and_congr_left fun hdigits => ⟨?_, ?_⟩
  · rintro ⟨marker, hmarker, rfl⟩
    rcases List.mem_cons.mp hmarker with rfl | hmarker
    · exact h.drop_digits hdigits
    · exact h.drop_append hmarker digits
  · rintro rfl
    exact h.split text

/-! ## The two grammars -/

/-- Whether a text is the digits of `n` bytes, behind `0x` in either case or not. -/
def IsFixed (n : Nat) (text : List Char) : Prop :=
  ∃ digits, HasDigits [['0', 'x'], ['0', 'X']] digits text ∧ digits.length = 2 * n

/-- A fixed string is read from a text exactly when the text has its number of digits. -/
theorem exists_decodeFixed_iff {n : Nat} :
    (∃ value, decodeFixed n text = .ok value) ↔ IsFixed n text := by
  simp only [decodeFixed_eq_ok_iff, IsFixed, dropMarker_strips.hasDigits_iff]
  constructor
  · rintro ⟨value, h⟩
    refine ⟨_, ⟨rfl, fun c => h.isDigit⟩, ?_⟩
    rw [h.length_eq, value.length_toBytes]
  · rintro ⟨_, ⟨rfl, hdigits⟩, hlen⟩
    obtain ⟨bs, h⟩ := exists_spells (by omega) hdigits
    have hbs : bs.length = n := by
      have hlen' := h.length_eq
      omega
    exact ⟨⟨bs, hbs⟩, h⟩

/-- Whether a text that a user gives has the given digits: between blanks, behind `0x` or not. -/
def IsInput (digits text : List Char) : Prop :=
  ∃ before body after, text = before ++ body ++ after ∧ (∀ c ∈ before, isBlank c) ∧
    (∀ c ∈ after, isBlank c) ∧ HasDigits [['0', 'x']] digits body

/-- The digits of a text that a user gives are what is left of it between the blanks and behind the
marker. -/
theorem isInput_iff :
    IsInput digits text ↔ dropLowerMarker (trim text) = digits ∧ ∀ c ∈ digits, isDigit c := by
  rw [← dropLowerMarker_strips.hasDigits_iff]
  constructor
  · rintro ⟨before, body, after, rfl, hbefore, hafter, hbody⟩
    have hblank : ∀ c ∈ body, isBlank c = false := by
      obtain ⟨⟨marker, hmarker, rfl⟩, hdigits⟩ := hbody
      have hmarker' : ∀ c ∈ marker, isBlank c = false := by
        rcases List.mem_pair.mp hmarker with rfl | rfl <;> simp [isBlank]
      intro c hc
      rcases List.mem_append.mp hc with hc | hc
      · exact hmarker' c hc
      · exact isBlank_of_isDigit (hdigits c hc)
    rw [trim_append_append hbefore hafter hblank]
    exact hbody
  · intro h
    obtain ⟨before, after, htext, hbefore, hafter⟩ := exists_eq_append_trim text
    exact ⟨before, trim text, after, htext, hbefore, hafter, h⟩

/-- The digits that a text has are those of the bytes that are read from it. -/
theorem IsInput.length_eq {bs : Bytes} (h : IsInput digits text)
    (hread : decodeInput text = .ok bs) : digits.length = 2 * bs.length := by
  obtain ⟨rfl, -⟩ := isInput_iff.mp h
  exact (decodeInput_eq_ok_iff.mp hread).length_eq

/-- What bytes are read from has digits. -/
theorem exists_isInput {bs : Bytes} (h : decodeInput text = .ok bs) :
    ∃ digits, IsInput digits text ∧ digits.length = 2 * bs.length := by
  have hspells := decodeInput_eq_ok_iff.mp h
  exact ⟨_, isInput_iff.mpr ⟨rfl, fun c => hspells.isDigit⟩, hspells.length_eq⟩

/-- Bytes are read from a text that a user gives exactly when it has an even number of digits. -/
theorem exists_decodeInput_iff :
    (∃ bs, decodeInput text = .ok bs) ↔ ∃ digits, IsInput digits text ∧ digits.length % 2 = 0 := by
  constructor
  · rintro ⟨bs, h⟩
    obtain ⟨digits, hinput, hlen⟩ := exists_isInput h
    exact ⟨digits, hinput, by omega⟩
  · rintro ⟨digits, hinput, heven⟩
    obtain ⟨rfl, hdigits⟩ := isInput_iff.mp hinput
    obtain ⟨bs, h⟩ := exists_spells heven hdigits
    exact ⟨bs, decodeInput_eq_ok_iff.mpr h⟩

end Hex

end Ethereum
