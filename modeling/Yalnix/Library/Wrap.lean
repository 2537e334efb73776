import Mathlib.Data.Int.ModEq
import Mathlib.Data.Nat.Bitwise

/-!
# Rounding in a register

A register of `n` bits holds an integer up to a multiple of `2 ^ n`. Clearing the low `k` bits
rounds down to a multiple of `2 ^ k`, and it does so on the register as on the integer that it
stands for.
-/

namespace BitVec

variable {n k : ℕ}

theorem ofInt_sub (x y : Int) :
    BitVec.ofInt n (x - y) = BitVec.ofInt n x - BitVec.ofInt n y := by
  rw [eq_sub_iff_add_eq, ← ofInt_add, Int.sub_add_cancel]

/-- Clearing the low bits takes the remainder off. -/
theorem toNat_and_not_mask (w : BitVec n) (k : ℕ) :
    (w &&& ~~~BitVec.ofNat n (2 ^ k - 1)).toNat = w.toNat - w.toNat % 2 ^ k := by
  have hround : w.toNat - w.toNat % 2 ^ k = 2 ^ k * (w.toNat / 2 ^ k) := by
    have hdiv := Nat.div_add_mod w.toNat (2 ^ k)
    omega
  rw [hround]
  apply Nat.eq_of_testBit_eq
  intro i
  rw [testBit_toNat, getLsbD_and, getLsbD_not, getLsbD_ofNat, Nat.testBit_two_pow_sub_one,
    Nat.testBit_two_pow_mul, Nat.testBit_div_two_pow, ← testBit_toNat]
  by_cases hi : k ≤ i
  · have hsum : i - k + k = i := by omega
    by_cases hn : i < n
    · simp [hi, hn, hsum, Nat.not_lt.2 hi]
    · have hfalse : w.toNat.testBit i = false := by
        rw [testBit_toNat]
        exact getLsbD_of_ge w i (Nat.not_lt.1 hn)
      simp [hi, hsum, hfalse]
  · by_cases hn : i < n
    · simp [hi, hn, Nat.not_le.1 hi]
    · simp [hi, hn]

/-- Rounding a register rounds the integer that it holds. -/
theorem ofInt_and_not_mask (x : Int) (hk : k ≤ n) :
    BitVec.ofInt n x &&& ~~~BitVec.ofNat n (2 ^ k - 1) = BitVec.ofInt n (x - x % 2 ^ k) := by
  apply eq_of_toNat_eq
  rw [toNat_and_not_mask, toNat_ofInt, toNat_ofInt]
  have hcast : ∀ j : ℕ, ((2 ^ j : ℕ) : Int) = 2 ^ j := fun j => by push_cast; rfl
  have hpos : (0 : Int) < 2 ^ n := Int.pow_pos (by decide)
  obtain ⟨r, hr⟩ := Int.eq_ofNat_of_zero_le (Int.emod_nonneg x hpos.ne')
  have hlow : x % 2 ^ k = ((r % 2 ^ k : ℕ) : Int) := by
    rw [← Int.emod_emod_of_dvd x (pow_dvd_pow (2 : Int) hk), hr]
    push_cast
    rfl
  have hle : r % 2 ^ k ≤ r := Nat.mod_le _ _
  have hround : (x - x % 2 ^ k) % 2 ^ n = ((r - r % 2 ^ k : ℕ) : Int) := by
    rw [← Int.emod_sub_emod, hr, hlow, ← Int.ofNat_sub hle]
    refine Int.emod_eq_of_lt (Int.natCast_nonneg _) ?_
    have hlt := Int.emod_lt_of_pos x hpos
    rw [hr] at hlt
    omega
  rw [hcast, hr, hround, Int.toNat_natCast, Int.toNat_natCast]

end BitVec
