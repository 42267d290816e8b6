import Ethereum.Proofs.Rlp.Exact
import Ethereum.Proofs.Rlp.HeadFault

/-!
# Where the payload of a list ends

`takePayload .list` splits a byte string where its list head says, and only there: the string must
start with the one spelling of a list head, and have as many bytes behind it as the head announces.
Every other byte string is refused, and the fault says in which way it is no list: it is that of the
head, or the string starts with a string item.

## Main statements

* `takePayload_list_eq_error_iff` — the faults of a list.
* `takePayload_list_splits` — where a list is split, and why other byte strings are refused.
-/

namespace Ethereum.Rlp

/-- No list is split off exactly when the head has a fault, or is that of a complete string. -/
theorem takePayload_list_eq_error_iff {bs : Bytes} {e : Error} :
    takePayload .list bs = .error e ↔
      HeadFault bs e ∨ e = .unexpectedString ∧
        ∃ payload rest, payload.length < 2 ^ 64 ∧ bs = encodeString payload ++ rest := by
  rw [takePayload, bind_eq_error_iff, Head.decode_eq_error_iff]
  refine or_congr Iff.rfl ⟨?_, ?_⟩
  · rintro ⟨⟨⟨kind, n⟩, body⟩, hdec, h⟩
    cases kind with
    | list => simp at h
    | string =>
      obtain rfl := Except.error.inj h
      -- the same head is one that a string is split off by
      have htake : takePayload .string bs = .ok (body.splitAt n) :=
        bind_eq_ok_iff.mpr ⟨_, hdec, rfl⟩
      rw [List.splitAt_eq, takePayload_eq_ok_iff, encodeItem_string] at htake
      exact ⟨rfl, _, _, htake.2, htake.1⟩
  · rintro ⟨rfl, payload, rest, hsize, rfl⟩
    rw [← encodeItem_string]
    exact ⟨_, Head.decode_encodeItem .string rest hsize, rfl⟩

/-- A list is split exactly where its head says. A payload of up to 64 bits of length and a rest are
split off a byte string exactly when the string is the head of a list of that length, the payload
and the rest, whatever the payload holds. Every other byte string is refused: with the fault of its
head, which is found before the payload is looked at if the head is not minimal; and as a string if
it starts with a complete one. A head that announces more bytes than there are is refused however
many it announces. -/
theorem takePayload_list_splits (bs : Bytes) :
    (∀ payload rest, payload.length < 2 ^ 64 →
      (liftRlp (takePayload .list bs) = .ok (payload, rest) ↔
        bs = (Head.mk .list payload.length).encode ++ (payload ++ rest))) ∧
    (∀ payload rest, liftRlp (takePayload .list bs) = .ok (payload, rest) →
      payload.length < 2 ^ 64) ∧
    (∀ fault, liftRlp (takePayload .list bs) = .error fault ↔
      ∃ cause, fault = .malformedEncoding cause ∧
        (HeadFault bs cause ∨ cause = .unexpectedString ∧
          ∃ payload rest, payload.length < 2 ^ 64 ∧ bs = encodeString payload ++ rest)) ∧
    ∀ n body, n < 2 ^ 64 → body.length < n → bs = (Head.mk .list n).encode ++ body →
      liftRlp (takePayload .list bs) = .error (.malformedEncoding .inputTooShort) := by
  have herror : ∀ fault, liftRlp (takePayload .list bs) = .error fault ↔
      ∃ cause, fault = .malformedEncoding cause ∧
        (HeadFault bs cause ∨ cause = .unexpectedString ∧
          ∃ payload rest, payload.length < 2 ^ 64 ∧ bs = encodeString payload ++ rest) := by
    intro fault
    rw [liftRlp_eq_error_iff]
    refine exists_congr fun cause => ?_
    rw [takePayload_list_eq_error_iff, and_comm]
  refine ⟨fun payload rest hsize => ?_, fun payload rest h => ?_, herror, ?_⟩
  · rw [liftRlp_eq_ok_iff, takePayload_eq_ok_iff, encodeItem_list, encodeList, List.append_assoc]
    exact and_iff_left hsize
  · exact (takePayload_eq_ok_iff.mp (liftRlp_eq_ok_iff.mp h)).2
  · rintro n body hsize hcut rfl
    exact (herror _).mpr ⟨_, rfl, .inl (.cutPayload hsize hcut)⟩

/-- A payload that holds no items is split off behind a head of two bytes, a head that announces the
longest payload of all is refused over the same bytes, and one that is not minimal is refused before
its payload is missed. -/
theorem takePayload_list_splits_longList :
    let payload : Bytes := List.replicate 56 0xff
    payload.length < 2 ^ 64 ∧
      liftRlp (takePayload .list (0xf8 :: 0x38 :: (payload ++ [0x05]))) =
        .ok (payload, [0x05]) ∧
      (Head.mk .list (2 ^ 64 - 1)).encode = List.replicate 9 0xff ∧
      liftRlp (takePayload .list (List.replicate 9 0xff ++ payload)) =
        .error (.malformedEncoding .inputTooShort) ∧
      liftRlp (takePayload .list [0xf8, 0x37]) =
        .error (.malformedEncoding .nonCanonicalSize) := by
  intro payload
  have hsize : payload.length < 2 ^ 64 := by decide
  have hhead : (Head.mk .list payload.length).encode = [0xf8, 0x38] := by decide
  have hlongest : (Head.mk .list (2 ^ 64 - 1)).encode = List.replicate 9 0xff := by decide +kernel
  obtain ⟨hsplit, -⟩ := takePayload_list_splits (0xf8 :: 0x38 :: (payload ++ [0x05]))
  obtain ⟨-, -, -, hcut⟩ := takePayload_list_splits (List.replicate 9 0xff ++ payload)
  obtain ⟨-, -, hfault, -⟩ := takePayload_list_splits [0xf8, 0x37]
  have hfirst : CountsLength .list [(0x37 : UInt8)].length 0xf8 := by decide
  have hsmall : HeadFault (0xf8 :: ([0x37] ++ [])) .nonCanonicalSize :=
    .nonCanonicalSize [] hfirst (by decide) (by decide)
  exact ⟨hsize, (hsplit payload [0x05] hsize).mpr (by rw [hhead]; rfl), hlongest,
    hcut (2 ^ 64 - 1) payload (by decide) (by decide) (by rw [hlongest]),
    (hfault _).mpr ⟨_, rfl, .inl hsmall⟩⟩

end Ethereum.Rlp
