import Ethereum.Bytes.Basic
import Mathlib.Algebra.Ring.Nat
import Mathlib.Data.List.Induction

/-!
# What byte strings hold

How many bytes a number needs, and what is left of it in a given number of them.

## Main statements

* `toNat_bigEndian` — `w` bytes keep a number up to `256 ^ w`.
* `lt_pow_byteCount`, `pow_le_of_byteCount_eq` — `byteCount n` bytes hold `n`, and one less does
  not.
* `toNat_ofNat` — the minimal form reads back.
* `ofNat_toNat` — a string that starts with no zero byte is the minimal form of what it writes.
-/

namespace Ethereum.Bytes

/-- `width` bytes keep a number up to `256 ^ width`. -/
theorem toNat_bigEndian (width n : Nat) : toNat (bigEndian width n) = n % 256 ^ width := by
  induction width generalizing n with
  | zero => simp [bigEndian, Nat.mod_one]
  | succ width ih =>
    have h := Nat.mod_mul (x := n) (a := 256) (b := 256 ^ width)
    rw [bigEndian, toNat_append_singleton, ih, Nat.pow_succ, Nat.mul_comm (256 ^ width), h]
    simp
    omega

/-- `byteCount n` bytes hold `n`. -/
theorem lt_pow_byteCount (n : Nat) : n < 256 ^ byteCount n := by
  unfold byteCount
  split
  · simp_all
  · next h =>
    have hlog : n < 2 ^ (Nat.log2 n + 1) := Nat.lt_log2_self
    have hpow : 2 ^ (Nat.log2 n + 1) ≤ 2 ^ (8 * (Nat.log2 n / 8 + 1)) :=
      Nat.pow_le_pow_right (by decide) (by omega)
    rw [show (256 : Nat) = 2 ^ 8 from rfl, ← Nat.pow_mul]
    omega

/-- One byte less than `byteCount n` does not hold `n`. -/
theorem pow_le_of_byteCount_eq {n k : Nat} (h : byteCount n = k + 1) : 256 ^ k ≤ n := by
  unfold byteCount at h
  split at h
  · omega
  · next hn =>
    have hlog : 2 ^ Nat.log2 n ≤ n := Nat.log2_self_le hn
    have hpow : 2 ^ (8 * k) ≤ 2 ^ Nat.log2 n := Nat.pow_le_pow_right (by decide) (by omega)
    rw [show (256 : Nat) = 2 ^ 8 from rfl, ← Nat.pow_mul]
    omega

/-- The minimal form of a number reads back. -/
@[simp] theorem toNat_ofNat (n : Nat) : toNat (ofNat n) = n := by
  rw [ofNat, toNat_bigEndian, Nat.mod_eq_of_lt (lt_pow_byteCount n)]

/-- A number that fits in `k` bytes needs no more of them. -/
theorem byteCount_le {n k : Nat} (h : n < 256 ^ k) : byteCount n ≤ k := by
  by_contra hk
  obtain ⟨j, hj⟩ : ∃ j, byteCount n = j + 1 := ⟨byteCount n - 1, by omega⟩
  have hle : 256 ^ k ≤ 256 ^ j := Nat.pow_le_pow_right (by decide) (by omega)
  have hn := pow_le_of_byteCount_eq hj
  omega

theorem byteCount_pos {n : Nat} (h : 0 < n) : 0 < byteCount n := by
  rw [byteCount, if_neg (by omega)]
  omega

/-- More bytes write larger numbers. -/
theorem byteCount_mono {m n : Nat} (h : m ≤ n) : byteCount m ≤ byteCount n :=
  byteCount_le (Nat.lt_of_le_of_lt h (lt_pow_byteCount n))

/-- What `n` bytes write is below `256 ^ n`. -/
theorem toNat_lt_pow (bs : Bytes) : toNat bs < 256 ^ bs.length := by
  induction bs using List.reverseRecOn with
  | nil => simp
  | append_singleton bs b ih =>
    have hb : b.toNat < 256 := b.toNat_lt
    rw [toNat_append_singleton, List.length_append, List.length_singleton, Nat.pow_succ]
    omega

/-- What no more than `k` bytes write is below `256 ^ k`. -/
theorem toNat_lt_pow_of_length_le {bs : Bytes} {k : Nat} (h : bs.length ≤ k) :
    toNat bs < 256 ^ k :=
  Nat.lt_of_lt_of_le (toNat_lt_pow bs) (Nat.pow_le_pow_right (by decide) h)

/-- As many bytes as a string has keep all of it. -/
theorem bigEndian_toNat (bs : Bytes) : bigEndian bs.length (toNat bs) = bs := by
  induction bs using List.reverseRecOn with
  | nil => rfl
  | append_singleton bs b ih =>
    have hb : b.toNat < 256 := b.toNat_lt
    have hdiv : (256 * toNat bs + b.toNat) / 256 = toNat bs := by omega
    have hmod : UInt8.ofNat (256 * toNat bs + b.toNat) = b := by
      rw [← UInt8.toNat_inj, UInt8.toNat_ofNat']
      omega
    rw [List.length_append, List.length_singleton, bigEndian, toNat_append_singleton, hdiv, hmod, ih]

/-- A leading byte counts for at least as much as all bytes behind it can. -/
theorem mul_pow_le_toNat_cons (b : UInt8) (bs : Bytes) :
    b.toNat * 256 ^ bs.length ≤ toNat (b :: bs) := by
  induction bs using List.reverseRecOn with
  | nil => simp [toNat]
  | append_singleton bs c ih =>
    rw [← List.cons_append, toNat_append_singleton, List.length_append, List.length_singleton,
      Nat.pow_succ, ← Nat.mul_assoc]
    omega

/-- A string that starts with no zero byte needs all of its bytes. -/
theorem byteCount_toNat {bs : Bytes} (h : bs.head? ≠ some 0) : byteCount (toNat bs) = bs.length := by
  apply Nat.le_antisymm (byteCount_le (toNat_lt_pow bs))
  cases bs with
  | nil => simp
  | cons b bs =>
    have hb : 0 < b.toNat := by
      rw [Nat.pos_iff_ne_zero]
      intro h0
      exact h (congrArg some (UInt8.toNat_inj.mp h0))
    -- the leading byte alone is worth more than fewer bytes could write
    have hle : 256 ^ bs.length ≤ toNat (b :: bs) :=
      Nat.le_trans (Nat.le_mul_of_pos_left _ hb) (mul_pow_le_toNat_cons b bs)
    by_contra hlt
    have hup := lt_pow_byteCount (toNat (b :: bs))
    have hpow : 256 ^ byteCount (toNat (b :: bs)) ≤ 256 ^ bs.length :=
      Nat.pow_le_pow_right (by decide) (by simp at hlt; omega)
    omega

/-- A string that starts with no zero byte is the minimal form of what it writes. -/
theorem ofNat_toNat {bs : Bytes} (h : bs.head? ≠ some 0) : ofNat (toNat bs) = bs := by
  rw [ofNat, byteCount_toNat h, bigEndian_toNat]

/-- A minimal form starts with no zero byte. -/
theorem head?_ofNat_ne_zero (n : Nat) : (ofNat n).head? ≠ some 0 := by
  intro h
  -- without the zero byte the rest would hold the number in one byte less than it needs
  obtain ⟨rest, hrest⟩ := List.head?_eq_some_iff.mp h
  have hzero : ∀ bs : Bytes, toNat (0 :: bs) = toNat bs := fun bs => rfl
  have hlen : rest.length + 1 = byteCount n := by simpa [hrest] using length_ofNat n
  have hle := pow_le_of_byteCount_eq hlen.symm
  have hlt := toNat_lt_pow rest
  rw [← hzero, ← hrest, toNat_ofNat] at hlt
  omega

end Ethereum.Bytes
