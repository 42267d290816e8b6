import Ethereum.Proofs.Text.Hex
import Ethereum.Tool.Summary

/-!
# What a printed summary shows

A summary is printed line by line, and is looked at the same way: a text shows a value for a key if
one of its lines names the key between quotes and then the value. Neither a key nor a value holds a
character that could end it, so a summary shows the values of its members and no others.

## Main statements

* `exists_line_iff` — the lines of items that are joined by commas.
* `shows_renderSummary_iff` — what a printed summary shows.
* `shows_hash_iff`, `shows_size_iff` and others — what the summaries of blocks and headers show.
-/

namespace Ethereum

namespace Tool

/-! ## Numerals -/

/-- What a number is written with in a base are digits of that base. -/
theorem exists_digitChar_of_mem_toDigits {base : Nat} (hbase : 1 < base) {c : Char} (n : Nat)
    (h : c ∈ Nat.toDigits base n) : ∃ v < base, c = Nat.digitChar v := by
  induction n using Nat.strongRecOn with
  | ind n ih =>
    rw [Nat.toDigits_eq_if hbase] at h
    split at h
    · next hn => exact ⟨n, hn, List.mem_singleton.mp h⟩
    · next hn =>
      rcases List.mem_append.mp h with h | h
      · exact ih (n / base) (Nat.div_lt_self (by omega) hbase) h
      · exact ⟨n % base, Nat.mod_lt _ (by omega), List.mem_singleton.mp h⟩

/-- No digit ends a line or a member. -/
theorem ne_of_mem_toDigits {base : Nat} (hbase : 1 < base) (hle : base ≤ 16) {c : Char} {n : Nat}
    (h : c ∈ Nat.toDigits base n) : c ≠ '\n' ∧ c ≠ ',' := by
  have hall : ∀ v < 16, Nat.digitChar v ≠ '\n' ∧ Nat.digitChar v ≠ ',' := by decide
  obtain ⟨v, hv, rfl⟩ := exists_digitChar_of_mem_toDigits hbase n h
  exact hall v (Nat.lt_of_lt_of_le hv hle)

/-- A number can be told from its decimal digits. -/
theorem toString_inj {m n : Nat} : toString m = toString n ↔ m = n := by
  refine ⟨fun h => ?_, congrArg toString⟩
  have hdigits : Nat.toDigits 10 m = Nat.toDigits 10 n := by
    rw [← Nat.toList_repr, ← Nat.toList_repr]
    exact congrArg String.toList h
  have hvalue := congrArg (fun digits => Nat.ofDigitChars 10 digits 0) hdigits
  simpa [Nat.ofDigitChars_toDigits] using hvalue

/-! ## Lines -/

/-- A text up to a character and from there on is split apart there. -/
theorem splitOn_append_cons {α : Type} [BEq α] [LawfulBEq α] (a : α) (before after : List α) :
    (before ++ a :: after).splitOn a = before.splitOn a ++ after.splitOn a :=
  List.splitOnP_append_cons before after (beq_self_eq_true a)

/-- Items that are joined by commas stand on a line each, all but the last one with a comma. -/
theorem exists_line_iff {items : List (List Char)} {item : List Char} (hne : items ≠ [])
    (hitems : ∀ own ∈ items, '\n' ∉ own ∧ ',' ∉ own.getLast?) (hitem : ',' ∉ item.getLast?) :
    (∃ line ∈ ([',', '\n'].intercalate items).splitOn '\n', line = item ∨ line = item ++ [',']) ↔
      item ∈ items := by
  -- an item that does not end in a comma is not another one with a comma
  have hcomma : ∀ own other : List Char, ',' ∉ own.getLast? → own ≠ other ++ [','] := by
    rintro _ other hown rfl
    simp at hown
  induction items with
  | nil => exact absurd rfl hne
  | cons first rest ih =>
    obtain ⟨⟨hline, hlast⟩, hrest⟩ := List.forall_mem_cons.mp hitems
    cases rest with
    | nil =>
      rw [List.intercalate_singleton, List.splitOn_eq_singleton hline]
      simp [hcomma first item hlast, eq_comm]
    | cons second rest =>
      have hsplit : ([',', '\n'].intercalate (first :: second :: rest)).splitOn '\n' =
          (first ++ [',']) :: ([',', '\n'].intercalate (second :: rest)).splitOn '\n' := by
        have hcons : [',', '\n'].intercalate (first :: second :: rest) =
            (first ++ [',']) ++ '\n' :: [',', '\n'].intercalate (second :: rest) := by
          rw [List.intercalate_cons_cons]
          simp
        rw [hcons, splitOn_append_cons, List.splitOn_eq_singleton (by simpa using hline)]
        rfl
      rw [hsplit, List.exists_mem_cons_iff, List.mem_cons]
      refine or_congr ?_ (ih (List.cons_ne_nil _ _) hrest)
      simp [(hcomma item first hitem).symm, eq_comm]

/-! ## Members -/

/-- A member on a line of its own, without what ends the line. -/
def memberLine (key value : String) : List Char := ("  \"" ++ key ++ "\": " ++ value).toList

/-- Whether a text shows a value for a key: one of its lines is the key and then the value, with a
comma at the end or not. The comma is no part of a value. -/
def Shows (output key value : String) : Prop :=
  ',' ∉ value.toList ∧ ∃ line ∈ output.toList.splitOn '\n',
    line = memberLine key value ∨ line = memberLine key value ++ [',']

/-- Whether a text is a byte string in hexadecimal, behind `0x` and between quotes. -/
def IsQuotedHex (value : String) (bs : Bytes) : Prop :=
  ∃ digits, Hex.Writes digits bs ∧ value = "\"0x" ++ String.ofList digits ++ "\""

/-- Whether a value is printed without a character that ends a line or a member. -/
def SummaryValue.IsPlain (value : SummaryValue) : Prop :=
  ∀ c ∈ value.render.toList, c ≠ '\n' ∧ c ≠ ','

instance (value : SummaryValue) : Decidable value.IsPlain :=
  List.decidableBAll (fun c => c ≠ '\n' ∧ c ≠ ',') value.render.toList

/-- Whether a key is printed without a character that ends a line or a key. -/
def IsKey (key : String) : Prop := ∀ c ∈ key.toList, c ≠ '\n' ∧ c ≠ '"'

instance (key : String) : Decidable (IsKey key) :=
  List.decidableBAll (fun c => c ≠ '\n' ∧ c ≠ '"') key.toList

variable {members : List (String × SummaryValue)} {key key' value value' : String}

theorem memberLine_eq (key value : String) :
    memberLine key value =
      ' ' :: ' ' :: '"' :: (key.toList ++ '"' :: ':' :: ' ' :: value.toList) := by
  simp [memberLine]

/-- The line of a member says what the key and the value are: the second quote is behind the key. -/
theorem memberLine_inj (hkey : IsKey key) (hkey' : IsKey key') :
    memberLine key value = memberLine key' value' ↔ key = key' ∧ value = value' := by
  have hlength : ∀ (key : String) (rest : List Char), IsKey key →
      (key.toList ++ '"' :: rest).idxOf '"' = key.toList.length := by
    intro key rest h
    rw [List.idxOf_append_of_notMem fun hmem => (h _ hmem).2 rfl, List.idxOf_cons_self,
      Nat.add_zero]
  rw [memberLine_eq, memberLine_eq]
  constructor
  · intro h
    have hrest := (List.cons.inj (List.cons.inj (List.cons.inj h).2).2).2
    have hlen := congrArg (List.idxOf '"') hrest
    rw [hlength _ _ hkey, hlength _ _ hkey'] at hlen
    obtain ⟨hkeys, hvalues⟩ := List.append_inj hrest hlen
    exact ⟨String.toList_inj.mp hkeys, String.toList_inj.mp (by simpa using hvalues)⟩
  · rintro ⟨rfl, rfl⟩
    rfl

theorem newline_notMem_memberLine (hkey : IsKey key) (hvalue : '\n' ∉ value.toList) :
    '\n' ∉ memberLine key value := by
  have hnotMem : '\n' ∉ key.toList := fun h => (hkey _ h).1 rfl
  rw [memberLine_eq]
  simp [hnotMem, hvalue]

theorem comma_notMem_getLast?_memberLine (hvalue : ',' ∉ value.toList) :
    ',' ∉ (memberLine key value).getLast? := by
  have hsplit : memberLine key value =
      (' ' :: ' ' :: '"' :: key.toList ++ ['"', ':']) ++ ' ' :: value.toList := by
    rw [memberLine_eq]
    simp
  rw [hsplit, List.getLast?_append_cons]
  intro hlast
  simpa [hvalue] using List.mem_of_getLast? hlast

/-- A summary is printed as the lines of its members, joined by commas, between braces. -/
theorem toList_renderSummary (members : List (String × SummaryValue)) :
    (renderSummary members).toList = ['\x7b'] ++ '\n' ::
      ([',', '\n'].intercalate (members.map fun member => memberLine member.1 member.2.render) ++
        '\n' :: (['\x7d'] ++ '\n' :: [])) := by
  rw [renderSummary, String.toList_append, String.toList_append, String.toList_intercalate,
    List.map_map]
  simp [memberLine, Function.comp_def]

section
variable (hne : members ≠ []) (hkeys : ∀ member ∈ members, IsKey member.1)
  (hvalues : ∀ member ∈ members, member.2.IsPlain)
include hne hkeys hvalues

/-- The lines that stand for members, which start with a blank as no other line does. -/
theorem exists_line_renderSummary_iff {rest : List Char} (hlast : ',' ∉ (' ' :: rest).getLast?) :
    (∃ line ∈ (renderSummary members).toList.splitOn '\n',
        line = ' ' :: rest ∨ line = ' ' :: rest ++ [',']) ↔
      ∃ member ∈ members, memberLine member.1 member.2.render = ' ' :: rest := by
  have hitems : ∀ own ∈ members.map fun member => memberLine member.1 member.2.render,
      '\n' ∉ own ∧ ',' ∉ own.getLast? := by
    intro own hown
    obtain ⟨member, hmember, rfl⟩ := List.mem_map.mp hown
    exact ⟨newline_notMem_memberLine (hkeys _ hmember) fun h => (hvalues _ hmember _ h).1 rfl,
      comma_notMem_getLast?_memberLine fun h => (hvalues _ hmember _ h).2 rfl⟩
  have hbrace : ∀ c : Char, c ≠ '\n' → [c].splitOn '\n' = [[c]] := fun c hc =>
    List.splitOn_eq_singleton (by simpa using hc.symm)
  rw [← List.mem_map, ← exists_line_iff (by simpa using hne) hitems hlast, toList_renderSummary,
    splitOn_append_cons, splitOn_append_cons, splitOn_append_cons, hbrace _ (by decide),
    hbrace _ (by decide)]
  simp [or_and_right, exists_or]

/-- A printed summary shows for a key the values of the members with that key, and nothing else. -/
theorem shows_renderSummary_iff (hkey : IsKey key) :
    Shows (renderSummary members) key value ↔ ∃ own, (key, own) ∈ members ∧ own.render = value := by
  have hlines : ',' ∉ value.toList → ((∃ line ∈ (renderSummary members).toList.splitOn '\n',
      line = memberLine key value ∨ line = memberLine key value ++ [',']) ↔
        ∃ member ∈ members, memberLine member.1 member.2.render = memberLine key value) := by
    intro hcomma
    have hlast : ',' ∉ (memberLine key value).getLast? := comma_notMem_getLast?_memberLine hcomma
    rw [memberLine_eq] at hlast ⊢
    exact exists_line_renderSummary_iff hne hkeys hvalues hlast
  constructor
  · rintro ⟨hcomma, hline⟩
    obtain ⟨⟨key', own⟩, hmember, hequal⟩ := (hlines hcomma).mp hline
    obtain ⟨rfl, hvalue⟩ := (memberLine_inj (hkeys _ hmember) hkey).mp hequal
    exact ⟨own, hmember, hvalue⟩
  · rintro ⟨own, hmember, rfl⟩
    have hcomma : ',' ∉ own.render.toList := fun h => (hvalues _ hmember _ h).2 rfl
    exact ⟨hcomma, (hlines hcomma).mpr ⟨_, hmember, rfl⟩⟩

end

/-! ## Plain values -/

namespace SummaryValue

theorem isPlain_text {text : String} (h : ∀ c ∈ text.toList, c ≠ '\n' ∧ c ≠ ',') :
    (SummaryValue.text text).IsPlain := by
  intro c hc
  rw [render, String.toList_append, String.toList_append] at hc
  rcases List.mem_append.mp hc with hc | hc
  · rcases List.mem_append.mp hc with hc | hc
    · obtain rfl := List.mem_singleton.mp hc
      decide
    · exact h c hc
  · obtain rfl := List.mem_singleton.mp hc
    decide

@[simp] theorem isPlain_toHex {n : Nat} (bs : FixedBytes n) :
    (SummaryValue.text bs.toHex).IsPlain := by
  have hall : ∀ v < 16, Text.hexDigit v ≠ '\n' ∧ Text.hexDigit v ≠ ',' := by decide
  refine isPlain_text fun c hc => ?_
  rcases Hex.eq_of_mem_encode hc with rfl | ⟨v, hv, rfl⟩
  · decide
  · exact hall v hv

@[simp] theorem isPlain_toHex_uint256 (n : UInt256) :
    (SummaryValue.text (UInt256.toHex n)).IsPlain := by
  refine isPlain_text fun c hc => ?_
  rw [UInt256.toHex, Hex.encodeNat, String.toList_ofList] at hc
  rcases List.mem_cons.mp hc with rfl | hc
  · decide
  rcases List.mem_cons.mp hc with rfl | hc
  · decide
  · exact ne_of_mem_toDigits (by decide) (by decide) hc

@[simp] theorem isPlain_number (n : Nat) : (SummaryValue.number n).IsPlain := by
  intro c hc
  rw [render, Nat.toString_eq_repr, Nat.toList_repr] at hc
  exact ne_of_mem_toDigits (by decide) (by decide) hc

@[simp] theorem isPlain_bool (b : Bool) : (SummaryValue.bool b).IsPlain := by
  cases b <;> decide

@[simp] theorem isPlain_null : SummaryValue.null.IsPlain := by decide

/-- A digest is printed with its digits. -/
theorem render_toHex_eq_iff {n : Nat} {bs : FixedBytes n} {value : String} :
    (SummaryValue.text bs.toHex).render = value ↔ IsQuotedHex value bs.toBytes := by
  have hquoted : ∀ digits : List Char, "\"" ++ String.ofList ('0' :: 'x' :: digits) ++ "\"" =
      "\"0x" ++ String.ofList digits ++ "\"" := by
    intro digits
    rw [← String.toList_inj]
    simp
  rw [render, FixedBytes.toHex, Hex.encode, hquoted]
  constructor
  · rintro rfl
    exact ⟨_, Hex.writes_iff.mpr rfl, rfl⟩
  · rintro ⟨digits, hdigits, rfl⟩
    rw [Hex.writes_iff.mp hdigits]

end SummaryValue

/-! ## What the two summaries show -/

section
variable [HashFunction]

/-- The summary of a block shows its members. -/
theorem shows_summarizeBlock_iff (block : Block) (hkey : IsKey key) :
    Shows (renderSummary (summarizeBlock block)) key value ↔
      ∃ own, (key, own) ∈ summarizeBlock block ∧ own.render = value := by
  refine shows_renderSummary_iff (List.cons_ne_nil _ _) ?_ ?_ hkey
  · simp only [summarizeBlock, List.forall_mem_cons]
    decide
  · -- the total difficulty is the one member that is not always there
    cases hdifficulty : block.totalDifficulty with
    | none => simp [summarizeBlock, hdifficulty]
    | some difficulty => simp [summarizeBlock, hdifficulty]

/-- The summary of a header shows its two digests. -/
theorem shows_summarizeHeader_iff (header : Header) (hkey : IsKey key) :
    Shows (renderSummary (summarizeHeader header)) key value ↔
      ∃ own, (key, own) ∈ summarizeHeader header ∧ own.render = value := by
  refine shows_renderSummary_iff (List.cons_ne_nil _ _) ?_ ?_ hkey
  · simp only [summarizeHeader, List.forall_mem_cons]
    decide
  · simp [summarizeHeader]

theorem shows_hash_iff {block : Block} :
    Shows (renderSummary (summarizeBlock block)) "hash" value ↔
      IsQuotedHex value block.hash.toBytes := by
  rw [shows_summarizeBlock_iff block (by decide), ← SummaryValue.render_toHex_eq_iff]
  simp [summarizeBlock]

theorem shows_hashNoNonce_iff {block : Block} :
    Shows (renderSummary (summarizeBlock block)) "hashNoNonce" value ↔
      IsQuotedHex value block.hashNoNonce.toBytes := by
  rw [shows_summarizeBlock_iff block (by decide), ← SummaryValue.render_toHex_eq_iff]
  simp [summarizeBlock]

theorem shows_size_iff {block : Block} :
    Shows (renderSummary (summarizeBlock block)) "size" value ↔ value = toString block.size := by
  rw [shows_summarizeBlock_iff block (by decide)]
  simp [summarizeBlock, SummaryValue.render, eq_comm]

/-- A total difficulty is shown as nothing exactly when the block has none. -/
theorem shows_totalDifficulty_null_iff {block : Block} :
    Shows (renderSummary (summarizeBlock block)) "totalDifficulty" "null" ↔
      block.totalDifficulty = none := by
  rw [shows_summarizeBlock_iff block (by decide)]
  cases hdifficulty : block.totalDifficulty with
  | none => simp [summarizeBlock, hdifficulty, SummaryValue.render]
  | some difficulty =>
    -- a number starts with a quote
    have htext : (SummaryValue.text (UInt256.toHex difficulty)).render ≠ "null" := by
      rw [SummaryValue.render, Ne, ← String.toList_inj]
      simp
    simp [summarizeBlock, hdifficulty, htext]

theorem shows_bodyConsistent_iff {block : Block} :
    Shows (renderSummary (summarizeBlock block)) "bodyConsistent" value ↔
      block.verifyBody = .ok () ∧ value = "true" ∨
        block.verifyBody ≠ .ok () ∧ value = "false" := by
  rw [shows_summarizeBlock_iff block (by decide)]
  cases hverify : block.verifyBody with
  | ok => simp [summarizeBlock, hverify, SummaryValue.render, eq_comm]
  | error fault => simp [summarizeBlock, hverify, SummaryValue.render, eq_comm]

theorem shows_header_hash_iff {header : Header} :
    Shows (renderSummary (summarizeHeader header)) "hash" value ↔
      IsQuotedHex value header.hash.toBytes := by
  rw [shows_summarizeHeader_iff header (by decide), ← SummaryValue.render_toHex_eq_iff]
  simp [summarizeHeader]

theorem shows_header_hashNoNonce_iff {header : Header} :
    Shows (renderSummary (summarizeHeader header)) "hashNoNonce" value ↔
      IsQuotedHex value header.hashNoNonce.toBytes := by
  rw [shows_summarizeHeader_iff header (by decide), ← SummaryValue.render_toHex_eq_iff]
  simp [summarizeHeader]

end

end Tool

end Ethereum
