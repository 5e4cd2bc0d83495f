import Mathlib.Algebra.Order.Ring.Nat
import Mathlib.Data.Nat.ModEq

/-!
# Machine words as natural numbers

What is left of a number that is stored in 32 or in 64 bits, and the difference of two
words.  Below the width nothing is lost (`u64_of_lt`, `sub64_eq`), and multiples of a power
of two are told apart from other numbers after storing as before (`dvd_u32`,
`not_dvd_u32_add`).
-/

namespace Ceph

open Nat

/-- A value as `uint32_t`. -/
def u32 (n : ℕ) : ℕ := n % 2 ^ 32

/-- A value as `uint64_t`. -/
def u64 (n : ℕ) : ℕ := n % 2 ^ 64

/-- The difference of two values as `uint64_t`. -/
def sub64 (a b : ℕ) : ℕ := u64 (a + 2 ^ 64 - b)

theorem u32_lt (n : ℕ) : u32 n < 2 ^ 32 := mod_lt n (Nat.two_pow_pos 32)

theorem u32_of_lt {n : ℕ} (h : n < 2 ^ 32) : u32 n = n := mod_eq_of_lt h

theorem u64_of_lt {n : ℕ} (h : n < 2 ^ 64) : u64 n = n := mod_eq_of_lt h

theorem sub64_eq {a b : ℕ} (hle : b ≤ a) (h : a - b < 2 ^ 64) : sub64 a b = a - b := by
  rw [sub64, u64, Nat.sub_add_comm hle, add_mod_right, mod_eq_of_lt h]

/-- Storing a number in 32 bits keeps it a multiple of a power of two. -/
theorem dvd_u32 {k n : ℕ} (h : 2 ^ k ∣ n) : 2 ^ k ∣ u32 n := by
  rw [u32]
  rcases le_total k 32 with hk | hk
  · exact (dvd_mod_iff (pow_dvd_pow 2 hk)).2 h
  · rw [mod_eq_zero_of_dvd ((pow_dvd_pow 2 hk).trans h)]
    exact dvd_zero _

/-- A word that is no multiple stays so when one is added to it. -/
theorem not_dvd_u32_add {k m n : ℕ} (hm : 2 ^ k ∣ m) (hlt : m < 2 ^ 32) (hn : ¬ 2 ^ k ∣ n)
    (hn' : n < 2 ^ 32) : ¬ 2 ^ k ∣ u32 (m + n) := by
  rw [u32]
  rcases le_total k 32 with hk | hk
  · rw [dvd_mod_iff (pow_dvd_pow 2 hk), Nat.dvd_add_right hm]
    exact hn
  · have hzero : m = 0 := eq_zero_of_dvd_of_lt hm (hlt.trans_le (pow_le_pow_right₀ (by decide) hk))
    rwa [hzero, zero_add, mod_eq_of_lt hn']

end Ceph
