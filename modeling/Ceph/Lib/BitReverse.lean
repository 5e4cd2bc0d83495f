import Mathlib.Data.BitVec
import Mathlib.Data.Nat.Bits

/-!
# Reversing the bits of a word

The low bits of a word are the high bits of the reversed word.  So words that agree
in their `n` lowest bits are, in the order of the reversed words, next to each other.
-/

namespace Ceph

open Nat

variable {w : ℕ}

/-- The lowest `n` bits agree if the highest `n` bits of the reversed words do. -/
theorem mod_two_pow_eq_iff_reverse {x y : BitVec w} {n : ℕ} (hn : n ≤ w) :
    x.toNat % 2 ^ n = y.toNat % 2 ^ n ↔
      x.reverse.toNat / 2 ^ (w - n) = y.reverse.toNat / 2 ^ (w - n) := by
  have hbit : ∀ (v : BitVec w) (i : ℕ), v.reverse.toNat.testBit i =
      (decide (i < w) && v.toNat.testBit (w - 1 - i)) := by
    intro v i
    rw [BitVec.testBit_toNat, BitVec.getLsbD_reverse, BitVec.getMsbD_eq_getLsbD,
      BitVec.testBit_toNat]
  constructor
  · intro h
    refine eq_of_testBit_eq fun i => ?_
    rw [testBit_div_two_pow, testBit_div_two_pow, hbit, hbit]
    by_cases hi : i + (w - n) < w
    · have hlow := congrArg (Nat.testBit · (w - 1 - (i + (w - n)))) h
      simp only [testBit_mod_two_pow,
        decide_eq_true (show w - 1 - (i + (w - n)) < n by omega), Bool.true_and] at hlow
      rw [hlow]
    · rw [decide_eq_false hi, Bool.false_and, Bool.false_and]
  · intro h
    refine eq_of_testBit_eq fun i => ?_
    rw [testBit_mod_two_pow, testBit_mod_two_pow]
    by_cases hi : i < n
    · have hhigh := congrArg (Nat.testBit · (n - 1 - i)) h
      simp only [testBit_div_two_pow, hbit] at hhigh
      rw [show w - 1 - (n - 1 - i + (w - n)) = i by omega,
        decide_eq_true (show n - 1 - i + (w - n) < w by omega), Bool.true_and,
        Bool.true_and] at hhigh
      rw [hhigh]
    · rw [decide_eq_false hi, Bool.false_and, Bool.false_and]

/-- A word below `2 ^ n` reversed is a multiple of `2 ^ (w - n)`. -/
theorem reverse_mod_two_pow {y : BitVec w} {n : ℕ} (hn : n ≤ w) (hy : y.toNat < 2 ^ n) :
    y.reverse.toNat % 2 ^ (w - n) = 0 := by
  refine eq_of_testBit_eq fun i => ?_
  rw [testBit_mod_two_pow, BitVec.testBit_toNat, BitVec.getLsbD_reverse,
    BitVec.getMsbD_eq_getLsbD, zero_testBit]
  by_cases hi : i < w - n
  · have hhigh : y.getLsbD (w - 1 - i) = false := by
      exact Nat.testBit_lt_two_pow (hy.trans_le (Nat.pow_le_pow_right (by decide) (by omega)))
    rw [hhigh, Bool.and_false, Bool.and_false]
  · rw [decide_eq_false hi, Bool.false_and]

/-- **The words that agree with `y` in their lowest bits are an interval of the reversed
words.** -/
theorem mod_two_pow_eq_iff_reverse_mem {x y : BitVec w} {n : ℕ} (hn : n ≤ w)
    (hy : y.toNat < 2 ^ n) :
    x.toNat % 2 ^ n = y.toNat ↔ y.reverse.toNat ≤ x.reverse.toNat ∧
      x.reverse.toNat < y.reverse.toNat + 2 ^ (w - n) := by
  have hmod := reverse_mod_two_pow hn hy
  have hpos : 0 < 2 ^ (w - n) := Nat.two_pow_pos _
  have hstart := Nat.div_add_mod y.reverse.toNat (2 ^ (w - n))
  have hiff := mod_two_pow_eq_iff_reverse (x := x) (y := y) hn
  rw [Nat.mod_eq_of_lt hy] at hiff
  rw [hiff, Nat.div_eq_iff hpos]
  rw [Nat.mul_comm] at hstart
  constructor
  · rintro ⟨h1, h2⟩
    omega
  · rintro ⟨h1, h2⟩
    omega

end Ceph
