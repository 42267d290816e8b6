import Ethereum.Header
import Ethereum.Proofs.Rlp.HeadFault
import Ethereum.Rlp.Scalar
import Ethereum.Transaction

/-!
# Faults of items

The faults that readers give are those of items: too short, not minimal, of the wrong kind or the
wrong length. A larger format passes on the faults of its parts, and a record adds only that it does
not fill its head. So no format words a fault of its own.

## Main statements

* `Codec.Standard.seq`, `Codec.Standard.record`, `Codec.Standard.list` — larger formats.
* `Transaction.codec_standard`, `Header.codec_standard` — the records that a block is made of.
-/

namespace Ethereum

namespace Rlp

/-- Whether a result is not a fault in words of its own. -/
def IsStandard {α : Type} (x : Except Error α) : Prop := ∀ text, x ≠ .error (.custom text)

/-- A sequence of two steps gives no fault of its own. -/
theorem IsStandard.bind {α β : Type} {x : Except Error α} {f : α → Except Error β}
    (hx : IsStandard x) (hf : ∀ a, IsStandard (f a)) : IsStandard (x >>= f) := by
  intro text h
  rcases bind_eq_error_iff.mp h with h | ⟨a, -, h⟩
  · exact hx text h
  · exact hf a text h

theorem Head.isStandard_decode (bs : Bytes) : IsStandard (decode bs) := by
  intro text h
  cases decode_eq_error_iff.mp h

theorem isStandard_takePayload (kind : ItemKind) (bs : Bytes) :
    IsStandard (takePayload kind bs) := by
  refine (Head.isStandard_decode bs).bind fun ⟨head, body⟩ text => ?_
  dsimp only
  split
  · simp
  · cases head.kind <;> simp [ItemKind.unexpected]

namespace Codec

variable {α β : Type} {c : Codec α} {d : Codec β}

/-- Whether a reader words no fault of its own. -/
def Standard (c : Codec α) : Prop := ∀ bs, IsStandard (c.decode bs)

theorem bytes_standard : bytes.Standard := isStandard_takePayload .string

theorem fixed_standard (n : Nat) : (fixed n).Standard := fun bs =>
  (isStandard_takePayload .string bs).bind fun _ text => by
    dsimp only
    split <;> simp

theorem uint64_standard : uint64.Standard := fun bs =>
  (isStandard_takePayload .string bs).bind fun _ text => by
    dsimp only
    split_ifs <;> simp

theorem uint256_standard : uint256.Standard := fun bs =>
  (isStandard_takePayload .string bs).bind fun _ text => by
    dsimp only
    split_ifs <;> simp

theorem recipient_standard : recipient.Standard := by
  intro bs text
  unfold recipient
  dsimp only
  split
  · simp
  · split
    · simp
    · exact (fixed_standard 20 _).bind (fun _ => by simp [IsStandard]) text

theorem Standard.seq (hc : c.Standard) (hd : d.Standard) : (c.seq d).Standard := fun bs =>
  (hc bs).bind fun ⟨_, rest⟩ => (hd rest).bind fun _ text => by simp

theorem Standard.imap (hc : c.Standard) (there : α → β) (back : β → α) :
    (c.imap there back).Standard := fun bs =>
  (hc bs).bind fun _ text => by simp

theorem Standard.record (hc : c.Standard) : (Codec.record c).Standard := fun bs =>
  (Head.isStandard_decode bs).bind fun ⟨head, body⟩ => by
    dsimp only
    split
    · simp [IsStandard]
    · refine (hc body).bind fun _ text => ?_
      split <;> simp

theorem Standard.decodeAll (hc : c.Standard) (fuel : Nat) (bs : Bytes) (read : List α) :
    IsStandard (c.decodeAll fuel bs read) := by
  fun_induction Codec.decodeAll c fuel bs read with
  | case1 => simp [IsStandard]
  | case2 => simp [IsStandard]
  | case3 fuel b bs read a rest hdec ih => exact ih
  | case4 fuel b bs read e hdec =>
    intro text h
    exact hc (b :: bs) text (hdec.trans (congrArg _ (Except.error.inj h)))

theorem Standard.list (hc : c.Standard) : (Codec.list c).Standard := fun bs =>
  (isStandard_takePayload .list bs).bind fun ⟨payload, _⟩ =>
    (hc.decodeAll payload.length payload []).bind fun _ text => by simp

end Codec

end Rlp

open Rlp.Codec

theorem Transaction.codec_standard : Transaction.codec.Standard :=
  ((uint64_standard.seq <| uint256_standard.seq <| uint256_standard.seq <|
    recipient_standard.seq <| uint256_standard.seq <| bytes_standard.seq <|
    uint64_standard.seq <| uint256_standard.seq uint256_standard).imap _ _).record

theorem Header.codec_standard : Header.codec.Standard :=
  ((((fixed_standard 32).seq <| (fixed_standard 32).seq <| (fixed_standard 20).seq <|
      (fixed_standard 32).seq <| (fixed_standard 32).seq <| (fixed_standard 32).seq <|
      (fixed_standard 256).seq <| uint256_standard.seq <| uint256_standard.seq <|
      uint256_standard.seq <| uint256_standard.seq <| uint64_standard.seq bytes_standard).imap
    _ _).seq (((fixed_standard 32).seq (fixed_standard 8)).imap _ _)).imap _ _ |>.record

end Ethereum
