/-!
# Byte strings and the numbers in them

A byte string is a plain list, so that every format of the library is a function on lists.
`bigEndian w n` writes the low `w` bytes of `n`, most significant first; `ofNat n` writes the
fewest bytes that hold `n`; `toNat` reads both back.
-/

namespace Ethereum

/-- A byte string of any length. -/
abbrev Bytes := List UInt8

namespace Bytes

/-- Whether a byte string has `n` bytes or more; no more than `n` of them are looked at. -/
def hasAtLeast : Nat → Bytes → Bool
  | 0, _ => true
  | _ + 1, [] => false
  | n + 1, _ :: rest => hasAtLeast n rest

theorem hasAtLeast_iff {n : Nat} {bs : Bytes} : hasAtLeast n bs = true ↔ n ≤ bs.length := by
  fun_induction hasAtLeast n bs <;> simp_all

/-- The low `width` bytes of a number, most significant first. -/
def bigEndian : Nat → Nat → Bytes
  | 0, _ => []
  | width + 1, n => bigEndian width (n / 256) ++ [UInt8.ofNat n]

/-- How many bytes a number needs: its bits rounded up to whole bytes, and none for zero. -/
def byteCount (n : Nat) : Nat :=
  if n = 0 then 0 else Nat.log2 n / 8 + 1

/-- The fewest bytes that hold a number, most significant first. Zero is the empty string. -/
def ofNat (n : Nat) : Bytes := bigEndian (byteCount n) n

/-- The number that a byte string writes, most significant byte first. -/
def toNat (bs : Bytes) : Nat := bs.foldl (fun n b => 256 * n + b.toNat) 0

@[simp] theorem length_bigEndian (width n : Nat) : (bigEndian width n).length = width := by
  induction width generalizing n with
  | zero => rfl
  | succ width ih => simp [bigEndian, ih]

@[simp] theorem length_ofNat (n : Nat) : (ofNat n).length = byteCount n := length_bigEndian _ _

@[simp] theorem toNat_nil : toNat [] = 0 := rfl

@[simp] theorem toNat_append_singleton (bs : Bytes) (b : UInt8) :
    toNat (bs ++ [b]) = 256 * toNat bs + b.toNat := by
  simp [toNat]

end Bytes

end Ethereum
