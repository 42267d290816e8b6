import Ethereum.Proofs.Rlp.Lawful
import Ethereum.Rlp.Exact

/-!
# Whole encodings of lawful formats

A byte string is read as a whole when it is read off its own front and nothing is left. So in a
lawful format it is read as a value exactly when it is the encoding of that value.
-/

namespace Ethereum

theorem liftRlp_eq_ok_iff {α : Type} {x : Except Rlp.Error α} {a : α} :
    liftRlp x = .ok a ↔ x = .ok a := by
  cases x <;> simp [liftRlp]

theorem liftRlp_eq_error_iff {α : Type} {x : Except Rlp.Error α} {fault : BlockError} :
    liftRlp x = .error fault ↔ ∃ cause, x = .error cause ∧ fault = .malformedEncoding cause := by
  cases x <;> simp [liftRlp, eq_comm]

namespace Rlp

section
variable {α : Type} {read : Bytes → Except BlockError (α × Bytes)} {bs rest : Bytes} {a : α}
  {fault : BlockError}

/-- All of a byte string is a value exactly when the value is read and nothing is left. -/
theorem whole_eq_ok_iff : whole read bs = .ok a ↔ read bs = .ok (a, []) := by
  constructor
  · intro h
    obtain ⟨⟨own, rest⟩, hread, h⟩ := bind_eq_ok_iff.mp h
    dsimp only at h
    split at h
    · next hend =>
      obtain rfl := Except.ok.inj h
      rwa [List.isEmpty_iff.mp hend] at hread
    · simp at h
  · intro h
    exact bind_eq_ok_iff.mpr ⟨_, h, rfl⟩

/-- All of a byte string is refused like its front, or because something follows a value. What
follows is counted. -/
theorem whole_eq_error_iff :
    whole read bs = .error fault ↔
      read bs = .error fault ∨
        ∃ a rest, read bs = .ok (a, rest) ∧ rest ≠ [] ∧ fault = .trailingBytes rest.length := by
  constructor
  · intro h
    rcases bind_eq_error_iff.mp h with h | ⟨⟨a, rest⟩, hread, h⟩
    · exact .inl h
    · dsimp only at h
      split at h
      · simp at h
      · next hrest =>
        exact .inr ⟨a, rest, hread, by simpa using hrest, (Except.error.inj h).symm⟩
  · rintro (h | ⟨a, rest, hread, hrest, rfl⟩)
    · exact bind_eq_error_iff.mpr (.inl h)
    · refine bind_eq_error_iff.mpr (.inr ⟨_, hread, ?_⟩)
      dsimp only
      rw [if_neg (by simpa using hrest)]

end

end Rlp

namespace Rlp.Codec

variable {α : Type} {c : Codec α} {bs : Bytes} {a : α}

/-- A byte string is a value as a whole exactly when it is read and nothing is left of it. -/
theorem decodeExact_eq_ok_iff : c.decodeExact bs = .ok a ↔ c.decode bs = .ok (a, []) := by
  rw [decodeExact, whole_eq_ok_iff, liftRlp_eq_ok_iff]

/-- Only the encoding of a value is that value as a whole. -/
theorem Lawful.eq_encode_of_decodeExact (hc : c.Lawful) (h : c.decodeExact bs = .ok a) :
    bs = c.encode a := by
  have hbs := hc.eq_encode_of_decode (decodeExact_eq_ok_iff.mp h)
  rwa [List.append_nil] at hbs

/-- The encoding of a value is that value as a whole. -/
theorem Lawful.decodeExact_encode (hc : c.Lawful) (hlen : (c.encode a).length < 2 ^ 64) :
    c.decodeExact (c.encode a) = .ok a := by
  rw [hc.length_encode] at hlen
  have hdec := hc.decode_encode a [] hlen
  rw [List.append_nil] at hdec
  exact decodeExact_eq_ok_iff.mpr hdec

end Rlp.Codec

end Ethereum
