import Ethereum.Proofs.Block.Element
import Ethereum.Proofs.Rlp.Shape

/-!
# Reading comes to an end

A list is read by taking one value after the other as long as anything is left of its payload.
Nothing counts these turns, so whether they end is a matter of the values: each of them has to take
a byte at least. `Turns` is this loop without any bound, and the fuel of `Codec.decodeAll` is seen
to be enough for it whenever the format of the values progresses.

Every format does. A list progresses whatever its values are, because its head is taken off before
they are looked at; so lists may hold lists, and records may hold both.

## Main statements

* `Shape.codec_progresses` — every value takes bytes off the front.
* `Codec.Turns.length_add_le`, `Codec.Turns.flatten_append` — what holds after any number of turns.
* `Codec.exists_turns_stop` — the turns end.
* `Shape.decode_progresses_and_ends` — readers progress, and lists are read to an end.
-/

namespace Ethereum.Rlp

namespace Codec

variable {α : Type} {c : Codec α}

/-! ## Progress -/

/-- Whether every value that is read takes bytes off the front, and leaves what follows them as it
is. -/
def Progresses (c : Codec α) : Prop :=
  ∀ ⦃bs rest : Bytes⦄ ⦃a : α⦄, c.decode bs = .ok (a, rest) → rest <:+ bs ∧ rest.length < bs.length

/-- What follows some bytes is a shorter suffix. -/
theorem suffix_and_length_lt {used : Bytes} (hne : used ≠ []) (rest : Bytes) :
    rest <:+ used ++ rest ∧ rest.length < (used ++ rest).length := by
  have hpos := List.length_pos_iff.mpr hne
  refine ⟨List.suffix_append used rest, ?_⟩
  rw [List.length_append]
  omega

theorem Lawful.progresses (hc : c.Lawful) : c.Progresses := by
  intro bs rest a h
  rw [hc.eq_encode_of_decode h]
  exact suffix_and_length_lt (hc.encode_ne_nil a) rest

/-- A list takes its head off the front, even if it is empty. -/
theorem list_progresses (c : Codec α) : (Codec.list c).Progresses := by
  intro bs rest items h
  obtain ⟨⟨payload, after⟩, htake, h⟩ := bind_eq_ok_iff.mp h
  obtain ⟨read, -, h⟩ := bind_eq_ok_iff.mp h
  obtain ⟨-, rfl⟩ := Prod.mk.inj (Except.ok.inj h)
  rw [(takePayload_eq_ok_iff.mp htake).1]
  exact suffix_and_length_lt (encodeItem_ne_nil .list payload) after

/-- A block takes its storage form off the front, with or without a total difficulty. -/
theorem block_progresses : Block.codec.Progresses := by
  intro bs rest block h
  have hfront := Block.decode_codec_eq_ok_iff.mp h
  rw [(Block.decodeFront_eq_ok_iff.mp hfront).1, Block.storageBytes_eq]
  exact suffix_and_length_lt (encodeItem_ne_nil .list _) rest

/-! ## Turns of the loop -/

/-- Some turns of the loop that reads the values of a list, from what is left of the payload before
the first to what is left behind the last. A turn is made as long as anything is left, and nothing
bounds their number. Of each turn it is kept which bytes it took, by the number of those that it
left, and the value that it read. -/
inductive Turns (c : Codec α) : Bytes → List (Bytes × α) → Bytes → Prop where
  | none (bs : Bytes) : Turns c bs [] bs
  | turn {bs rest left : Bytes} {a : α} {later : List (Bytes × α)} (hne : bs ≠ [])
    (hread : c.decode bs = .ok (a, rest)) (hlater : Turns c rest later left) :
    Turns c bs ((bs.take (bs.length - rest.length), a) :: later) left

section
variable {bs left payload after : Bytes} {turns : List (Bytes × α)}

/-- Every turn leaves fewer bytes, so there are no more turns than bytes. -/
theorem Turns.length_add_le (hc : c.Progresses) (h : c.Turns bs turns left) :
    turns.length + left.length ≤ bs.length := by
  induction h with
  | none bs => exact Nat.le_of_eq (Nat.zero_add _)
  | turn hne hread hlater ih =>
    have hless := (hc hread).2
    rw [List.length_cons]
    omega

/-- What the turns took and what is left are all there was. -/
theorem Turns.flatten_append (hc : c.Progresses) (h : c.Turns bs turns left) :
    (turns.map Prod.fst).flatten ++ left = bs := by
  induction h with
  | none bs => rfl
  | turn hne hread hlater ih =>
    rw [List.map_cons, List.flatten_cons, List.append_assoc, ih]
    exact List.suffix_iff_eq_append.mp (hc hread).1

/-- The turns end: nothing is left, or the next one fails. -/
theorem exists_turns_stop (hc : c.Progresses) (bs : Bytes) :
    ∃ turns left, c.Turns bs turns left ∧
      (left = [] ∨ left ≠ [] ∧ ∃ e, c.decode left = .error e) := by
  by_cases hne : bs = []
  · exact ⟨[], bs, .none bs, .inl hne⟩
  · cases hread : c.decode bs with
    | error e => exact ⟨[], bs, .none bs, .inr ⟨hne, e, hread⟩⟩
    | ok result =>
      obtain ⟨a, rest⟩ := result
      -- what this turn leaves is shorter, so the turns behind it end
      have hless := (hc hread).2
      obtain ⟨later, left, hlater, hstop⟩ := exists_turns_stop hc rest
      exact ⟨_, left, .turn hne hread hlater, hstop⟩
termination_by bs.length

/-- A turn takes one unit of fuel. -/
theorem Turns.decodeAll_eq (h : c.Turns bs turns left) (fuel : Nat) (read : List α) :
    c.decodeAll (turns.length + fuel) bs read =
      c.decodeAll fuel left ((turns.map Prod.snd).reverse ++ read) := by
  induction h generalizing read with
  | none bs =>
    rw [List.length_nil, Nat.zero_add]
    rfl
  | @turn bs rest left a later hne hread hlater ih =>
    -- with fuel or without, the loop goes on for as long as there is a first byte
    obtain ⟨b, tail, rfl⟩ := List.exists_cons_of_ne_nil hne
    rw [List.length_cons, Nat.add_right_comm, decodeAll, hread]
    dsimp only
    rw [ih, List.map_cons, List.reverse_cons, List.append_assoc, List.singleton_append]

/-! ## Lists -/

/-- A list whose payload is used up is read as the values of its turns. -/
theorem decode_list_of_turns (htake : takePayload .list bs = .ok (payload, after))
    (h : c.Turns payload turns []) (hfuel : turns.length ≤ payload.length) :
    (Codec.list c).decode bs = .ok (turns.map Prod.snd, after) := by
  have hall : c.decodeAll payload.length payload [] = .ok (turns.map Prod.snd) := by
    rw [← Nat.add_sub_cancel' hfuel, h.decodeAll_eq, decodeAll, List.append_nil,
      List.reverse_reverse]
  exact bind_eq_ok_iff.mpr ⟨_, htake, bind_eq_ok_iff.mpr ⟨_, hall, rfl⟩⟩

/-- A list is refused with the fault of the turn that fails. -/
theorem decode_list_of_turns_of_error {e : Error}
    (htake : takePayload .list bs = .ok (payload, after)) (h : c.Turns payload turns left)
    (hne : left ≠ []) (hread : c.decode left = .error e)
    (hfuel : turns.length + 1 ≤ payload.length) : (Codec.list c).decode bs = .error e := by
  have hall : c.decodeAll payload.length payload [] = .error e := by
    obtain ⟨b, tail, rfl⟩ := List.exists_cons_of_ne_nil hne
    rw [← Nat.add_sub_cancel' hfuel, Nat.add_assoc, h.decodeAll_eq, Nat.add_comm 1, decodeAll,
      hread]
  exact bind_eq_error_iff.mpr (.inr ⟨_, htake, bind_eq_error_iff.mpr (.inl hall)⟩)

end

end Codec

/-- The format of every type progresses, with blocks in it or not. -/
theorem Shape.codec_progresses (shape : Shape) : shape.codec.Progresses := by
  cases shape with
  | block => exact Codec.block_progresses
  | list item => exact Codec.list_progresses item.codec
  | _ => exact (codec_lawful rfl).progresses

/-- Reading progresses and comes to an end, for every type and every byte string. A value that is
read takes at least one byte, and what it leaves is a suffix. There are never more turns of the loop
that reads a list than its payload has bytes, the one that fails included; if none fails, the turns
took exactly the payload, and the list is their values. Without a payload no turn is made. -/
theorem Shape.decode_progresses_and_ends (shape : Shape) :
    (∀ bs value rest, shape.codec.decode bs = .ok (value, rest) →
      rest <:+ bs ∧ rest.length < bs.length) ∧
    (∀ payload turns left, shape.codec.Turns payload turns left →
      turns.length + left.length ≤ payload.length) ∧
    (∀ bs e, takePayload .list bs = .error e → (Shape.list shape).codec.decode bs = .error e) ∧
    ∀ bs payload after, takePayload .list bs = .ok (payload, after) →
      ∃ turns left, shape.codec.Turns payload turns left ∧
        (left = [] ∧ turns.length ≤ payload.length ∧ (turns.map Prod.fst).flatten = payload ∧
            (Shape.list shape).codec.decode bs = .ok (turns.map Prod.snd, after) ∨
          left ≠ [] ∧ turns.length + 1 ≤ payload.length ∧
            ∃ e, shape.codec.decode left = .error e ∧
              (Shape.list shape).codec.decode bs = .error e) := by
  have hc := shape.codec_progresses
  refine ⟨fun bs value rest h => hc h, fun payload turns left h => h.length_add_le hc,
    fun bs e h => bind_eq_error_iff.mpr (.inl h), fun bs payload after htake => ?_⟩
  obtain ⟨turns, left, hturns, hstop⟩ := Codec.exists_turns_stop hc payload
  have hcount := hturns.length_add_le hc
  refine ⟨turns, left, hturns, ?_⟩
  rcases hstop with rfl | ⟨hne, e, hread⟩
  · have hflatten := hturns.flatten_append hc
    rw [List.append_nil] at hflatten
    rw [List.length_nil, Nat.add_zero] at hcount
    exact .inl ⟨rfl, hcount, hflatten, Codec.decode_list_of_turns htake hturns hcount⟩
  · have hpos := List.length_pos_iff.mpr hne
    have hlt : turns.length + 1 ≤ payload.length := by omega
    exact .inr ⟨hne, hlt, e, hread,
      Codec.decode_list_of_turns_of_error htake hturns hne hread hlt⟩

/-- A list of two lists and a byte behind it: two turns take the four bytes of its payload, and the
byte is left. A list whose second item is a small byte with a head too much is refused in its second
turn, and a string is refused without any. -/
theorem Shape.decode_progresses_and_ends_nestedLists :
    let item : Shape := .list .uint64
    let payload : Bytes := [0xc2, 0x01, 0x02, 0xc0]
    let items : List (List UInt64) := [[1, 2], []]
    let turns : List (Bytes × List UInt64) := [([0xc2, 0x01, 0x02], [1, 2]), ([0xc0], [])]
    item.codec.Turns payload turns [] ∧ turns.length ≤ payload.length ∧
      (Shape.list item).codec.decode (0xc4 :: (payload ++ [0x05])) = .ok (items, [0x05]) ∧
      [0x05] <:+ 0xc4 :: (payload ++ [0x05]) ∧
      (∃ turns, item.codec.Turns payload turns [] ∧ (turns.map Prod.fst).flatten = payload ∧
        turns.map Prod.snd = items) ∧
      (∃ turns left, Shape.uint64.codec.Turns [0x01, 0x81, 0x05] turns left ∧ left ≠ [] ∧
        turns.length + 1 ≤ 3) ∧
      (Shape.list item).codec.decode [0x82, 0x01, 0x02] = .error .unexpectedString := by
  intro item payload items turns
  have hread : (Codec.list (Codec.list Codec.uint64)).decode (0xc4 :: (payload ++ [0x05])) =
      .ok (items, [0x05]) := by decide +kernel
  have htake : takePayload .list (0xc4 :: (payload ++ [0x05])) = .ok (payload, [0x05]) := by decide
  have hrefused : (Codec.list Codec.uint64).decode [0xc3, 0x01, 0x81, 0x05] =
      .error .nonCanonicalSingleByte := by decide +kernel
  have hfirst : (Codec.list Codec.uint64).decode payload = .ok ([1, 2], [0xc0]) := by decide +kernel
  have hsecond : (Codec.list Codec.uint64).decode [0xc0] = .ok ([], []) := by decide +kernel
  have hturns : item.codec.Turns payload turns [] :=
    .turn (by decide) hfirst (.turn (by decide) hsecond (.none []))
  obtain ⟨-, hcount, hstring, hlist⟩ := decode_progresses_and_ends item
  obtain ⟨hprogress, -⟩ := decode_progresses_and_ends (.list item)
  obtain ⟨-, -, -, hfail⟩ := decode_progresses_and_ends .uint64
  refine ⟨hturns, hcount _ _ _ hturns, hread, (hprogress _ _ _ hread).1, ?_, ?_,
    hstring _ _ (by decide)⟩
  · obtain ⟨own, left, hown, ⟨rfl, -, hflatten, hdecode⟩ | ⟨-, -, e, -, herror⟩⟩ :=
      hlist _ _ _ htake
    · have hvalues := (Prod.mk.inj (Except.ok.inj (hdecode.symm.trans hread))).1
      exact ⟨own, hown, hflatten, hvalues⟩
    · exact absurd (herror.symm.trans hread) (by simp)
  · obtain ⟨own, left, hown, ⟨-, -, -, hdecode⟩ | ⟨hne, hlt, -⟩⟩ :=
      hfail [0xc3, 0x01, 0x81, 0x05] [0x01, 0x81, 0x05] [] (by decide)
    · exact absurd (hdecode.symm.trans hrefused) (by simp)
    · exact ⟨own, left, hown, hne, hlt⟩

end Ethereum.Rlp
