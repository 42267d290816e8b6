import Ethereum.Trie.Nibble
import Ethereum.Proofs.Rlp.Head

/-!
# Paths are told apart

No two byte strings have the same nibbles, and no two paths are packed alike: the flag in front of a
packed path says where it ends, and whether the nibble behind it is part of the path.
-/

namespace Ethereum.Trie

theorem nibbles_cons (b : UInt8) (bs : Bytes) :
    nibbles (b :: bs) = Fin.ofNat 16 (b.toNat / 16) :: Fin.ofNat 16 b.toNat :: nibbles bs := rfl

/-- Two halves of a byte and its value. -/
theorem toNat_ofNat_halves (hi lo : Nibble) :
    (UInt8.ofNat (16 * hi.val + lo.val)).toNat = 16 * hi.val + lo.val :=
  Rlp.toNat_ofNat_of_lt (by omega)

/-- Nibbles in pairs are the nibbles of the bytes that they are packed into. -/
theorem nibbles_pack {path : List Nibble} (h : path.length % 2 = 0) : nibbles (pack path) = path := by
  induction path using pack.induct with
  | case1 hi lo rest ih =>
    have hrest : rest.length % 2 = 0 := by
      rw [List.length_cons, List.length_cons] at h
      omega
    have hhi : Fin.ofNat 16 ((16 * hi.val + lo.val) / 16) = hi := by
      apply Fin.ext
      show (16 * hi.val + lo.val) / 16 % 16 = hi.val
      omega
    have hlo : Fin.ofNat 16 (16 * hi.val + lo.val) = lo := by
      apply Fin.ext
      show (16 * hi.val + lo.val) % 16 = lo.val
      omega
    rw [pack, nibbles_cons, toNat_ofNat_halves, hhi, hlo, ih hrest]
  | case2 path hshort =>
    -- what is not packed in pairs is empty, since a single nibble has odd length
    match path with
    | [] => rfl
    | [_] => simp at h
    | hi :: lo :: rest => exact absurd rfl (hshort hi lo rest)

/-- No two byte strings have the same nibbles. -/
theorem nibbles_inj {as bs : Bytes} (h : nibbles as = nibbles bs) : as = bs := by
  induction as generalizing bs with
  | nil =>
    cases bs with
    | nil => rfl
    | cons b bs => simp [nibbles] at h
  | cons a as ih =>
    cases bs with
    | nil => simp [nibbles] at h
    | cons b bs =>
      rw [nibbles_cons, nibbles_cons, List.cons.injEq, List.cons.injEq] at h
      obtain ⟨hhi, hlo, hrest⟩ := h
      have hhi : a.toNat / 16 % 16 = b.toNat / 16 % 16 := congrArg Fin.val hhi
      have hlo : a.toNat % 16 = b.toNat % 16 := congrArg Fin.val hlo
      have ha := a.toNat_lt
      have hb := b.toNat_lt
      have hab : a = b := UInt8.toNat_inj.mp (by omega)
      rw [hab, ih hrest]

/-- The nibbles of a packed path: its flag, a filling zero if its length is even, and the path. -/
theorem nibbles_compactPath (endsAtValue : Bool) (path : List Nibble) :
    nibbles (compactPath endsAtValue path) =
      let flag : Nibble := if endsAtValue then 2 else 0
      if path.length % 2 = 1 then (flag + 1) :: path else flag :: 0 :: path := by
  rw [compactPath]
  dsimp only
  split
  · exact nibbles_pack (by rw [List.length_cons]; omega)
  · exact nibbles_pack (by rw [List.length_cons, List.length_cons]; omega)

/-- A packed path says whether it ends at a value, and how it goes. -/
theorem compactPath_inj {e e' : Bool} {path path' : List Nibble}
    (h : compactPath e path = compactPath e' path') : e = e' ∧ path = path' := by
  -- the first nibble alone tells the two flags and the two parities apart
  have hodd : ∀ e e' : Bool, (if e then 2 else 0 : Nibble) + 1 = (if e' then 2 else 0) + 1 →
      e = e' := by decide
  have heven : ∀ e e' : Bool, (if e then 2 else 0 : Nibble) = (if e' then 2 else 0) → e = e' := by
    decide
  have hmixed : ∀ e e' : Bool, (if e then 2 else 0 : Nibble) + 1 ≠ if e' then 2 else 0 := by decide
  have hnibbles := congrArg nibbles h
  rw [nibbles_compactPath, nibbles_compactPath] at hnibbles
  dsimp only at hnibbles
  by_cases hpath : path.length % 2 = 1
  · by_cases hpath' : path'.length % 2 = 1
    · rw [if_pos hpath, if_pos hpath', List.cons.injEq] at hnibbles
      exact ⟨hodd e e' hnibbles.1, hnibbles.2⟩
    · rw [if_pos hpath, if_neg hpath', List.cons.injEq] at hnibbles
      exact absurd hnibbles.1 (hmixed e e')
  · by_cases hpath' : path'.length % 2 = 1
    · rw [if_neg hpath, if_pos hpath', List.cons.injEq] at hnibbles
      exact absurd hnibbles.1.symm (hmixed e' e)
    · rw [if_neg hpath, if_neg hpath', List.cons.injEq, List.cons.injEq] at hnibbles
      exact ⟨heven e e' hnibbles.1, hnibbles.2.2⟩

end Ethereum.Trie
