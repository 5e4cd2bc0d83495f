import Ceph.Lib.Codec

/-!
# Encodings of numbers

The formats of `include/denc.h` for lengths and for offsets on a device: both leave out low zero
bits, of which they write the number first.

* `reads_varintLowz`, `reads_lba` — they are read back.
-/

namespace Ceph.Os

open Nat

variable (v : ℕ)

/-- `ctz`: the number of trailing zero bits. -/
def ctz : ℕ := ((List.range 64).find? v.testBit).getD 64

/-- `denc_varint_lowz`: the two low bits are the number of low zero nibbles. -/
def dencVarintLowz : List UInt8 :=
  let lowznib := min (if v ≠ 0 then ctz v / 4 else 0) 3
  varint ((v >>> (lowznib * 4)) <<< 2 % 2 ^ 64 ||| lowznib)

/-- `denc_varint_lowz`, into a word of `w` bits -/
def readVarintLowz (w : ℕ) : Decoder ℕ := do
  let i ← readVarint 64
  let lowznib := i % 4
  pure ((i >>> 2) <<< (lowznib * 4) % 2 ^ 64 % 2 ^ w)

/-- What `denc_lba` leaves of an offset, where it stands in the first word, and the bits below. -/
def lbaStart : ℕ × ℕ × ℕ :=
  let lowZeroNibbles := if v ≠ 0 then ctz v / 4 else 0
  if lowZeroNibbles < 3 then (v, 3, 7)
  else if lowZeroNibbles < 6 then
    (v >>> (lowZeroNibbles * 4), lowZeroNibbles - 3 + 1, 2 ^ (lowZeroNibbles - 3) - 1)
  else (v >>> 20, 3, 3)

/-- `denc_lba` -/
def dencLba : List UInt8 :=
  let (v, pos, word) := lbaStart v
  let word := word ||| v <<< pos % 2 ^ 31
  let v := v >>> (31 - pos)
  if v = 0 then leBytes 4 word else leBytes 4 (word ||| 2 ^ 31) ++ varint v

/-- The offset in the first word, without the flag that bytes follow, and the place of the bits
that follow. -/
def lbaWord (word : ℕ) : ℕ × ℕ :=
  match word % 8 with
  | 0 | 2 | 4 | 6 => (word % 2 ^ 31 / 2 * 2 * 2 ^ 11, 12 + 30)
  | 1 | 5 => (word % 2 ^ 31 / 4 * 4 * 2 ^ 14, 16 + 29)
  | 3 => (word % 2 ^ 31 / 8 * 8 * 2 ^ 17, 20 + 28)
  | _ => (word % 2 ^ 31 / 8, 28)

/-- `denc_lba` -/
def readLba : Decoder ℕ := do
  let word ← leNat 4
  let (v, shift) := lbaWord word
  if word.testBit 31 then readVarintFrom 64 shift v else pure v

/-! ## Low zero bits -/

theorem two_pow_dvd_of_testBit {v k : ℕ} (h : ∀ i < k, v.testBit i = false) : 2 ^ k ∣ v := by
  refine dvd_of_mod_eq_zero (eq_of_testBit_eq fun i => ?_)
  by_cases hi : i < k
  · simp [h i hi]
  · simp [hi]

theorem two_pow_ctz_dvd : 2 ^ ctz v ∣ v := by
  refine two_pow_dvd_of_testBit fun i hi => ?_
  rw [ctz] at hi
  cases hfind : (List.range 64).find? v.testBit with
  | none =>
    rw [hfind, Option.getD_none] at hi
    simpa using List.find?_eq_none.1 hfind i (List.mem_range.2 hi)
  | some k =>
    rw [hfind, Option.getD_some] at hi
    simpa using (List.find?_range_eq_some.1 hfind).2.2 i hi

/-- As many nibbles as the trailing zero bits have are zero. -/
theorem nibbles_dvd {n : ℕ} (hn : n ≤ if v ≠ 0 then ctz v / 4 else 0) : 2 ^ (n * 4) ∣ v := by
  split_ifs at hn with hv
  · exact (pow_dvd_pow 2 (by omega)).trans (two_pow_ctz_dvd v)
  · rw [not_not.1 hv]
    exact dvd_zero _

/-! ## Reading them back -/

theorem reads_varintLowz {v w : ℕ} (hv : v < 2 ^ 62) (hw : v < 2 ^ w) :
    Reads (readVarintLowz w) (dencVarintLowz v) v := by
  simp only [dencVarintLowz]
  generalize hnib : min (if v ≠ 0 then ctz v / 4 else 0) 3 = nib
  obtain ⟨q, hq⟩ := nibbles_dvd v (hnib ▸ min_le_left _ _)
  have hsmall : nib < 2 ^ 2 := by
    omega
  have hle : q ≤ v := by
    rw [hq]
    exact Nat.le_mul_of_pos_left _ (Nat.two_pow_pos _)
  have hshift : v >>> (nib * 4) = q := by
    rw [Nat.shiftRight_eq_div_pow, hq, Nat.mul_div_cancel_left _ (Nat.two_pow_pos _)]
  have hword : (v >>> (nib * 4)) <<< 2 % 2 ^ 64 ||| nib = 4 * q + nib := by
    rw [hshift, shiftLeft_eq, mod_eq_of_lt (by omega), mul_comm]
    exact (two_pow_add_eq_or_of_lt hsmall q).symm
  rw [hword]
  have hread := (reads_varint (show 4 * q + nib < 2 ^ 64 by omega)).map
    fun i => (i >>> 2) <<< (i % 4 * 4) % 2 ^ 64 % 2 ^ w
  have hvalue : ((4 * q + nib) >>> 2) <<< ((4 * q + nib) % 4 * 4) % 2 ^ 64 % 2 ^ w = v := by
    have hnib' : (4 * q + nib) % 4 = nib := by omega
    have hq' : (4 * q + nib) >>> 2 = q := by
      omega
    rw [hnib', hq', shiftLeft_eq, mul_comm, ← hq,
      mod_eq_of_lt (show v < 2 ^ 64 by omega), mod_eq_of_lt hw]
  rwa [hvalue] at hread

variable {word : ℕ}

theorem lbaWord_even (h : word % 2 = 0) : lbaWord word = (word % 2 ^ 31 / 2 * 2 * 2 ^ 11, 42) := by
  obtain h | h | h | h : word % 8 = 0 ∨ word % 8 = 2 ∨ word % 8 = 4 ∨ word % 8 = 6 := by omega
  all_goals simp [lbaWord, h]

theorem lbaWord_one (h : word % 4 = 1) : lbaWord word = (word % 2 ^ 31 / 4 * 4 * 2 ^ 14, 45) := by
  obtain h | h : word % 8 = 1 ∨ word % 8 = 5 := by omega
  all_goals simp [lbaWord, h]

theorem lbaWord_three (h : word % 8 = 3) : lbaWord word = (word % 2 ^ 31 / 8 * 8 * 2 ^ 17, 48) := by
  simp [lbaWord, h]

theorem lbaWord_seven (h : word % 8 = 7) : lbaWord word = (word % 2 ^ 31 / 8, 28) := by
  simp [lbaWord, h]

/-- The first word says how many low bits were left out: they are `k`, and the word has the bits
from there on. -/
theorem lbaStart_spec : ∃ k x pos low, lbaStart v = (x, pos, low) ∧ v = x * 2 ^ k ∧
    low < 2 ^ pos ∧ pos ≤ 31 ∧ ∀ word y, word % 2 ^ 31 = low + 2 ^ pos * y →
      lbaWord word = (y * 2 ^ k, 31 - pos + k) := by
  have hdvd := @nibbles_dvd v
  rw [lbaStart]
  generalize (if v ≠ 0 then ctz v / 4 else 0) = nib at hdvd
  have hshift : ∀ n ≤ nib, v = v >>> (n * 4) * 2 ^ (n * 4) := by
    intro n hn
    rw [Nat.shiftRight_eq_div_pow, Nat.div_mul_cancel (hdvd hn)]
  split_ifs with hfew hsome
  · refine ⟨0, v, 3, 7, rfl, by simp, by decide, by decide, fun word y hword => ?_⟩
    rw [lbaWord_seven (by omega)]
    rw [Prod.mk.injEq]
    omega
  · obtain rfl | rfl | rfl : nib = 3 ∨ nib = 4 ∨ nib = 5 := by omega
    · refine ⟨12, _, 1, 0, rfl, hshift 3 le_rfl, by decide, by decide, fun word y hword => ?_⟩
      rw [lbaWord_even (by omega)]
      rw [Prod.mk.injEq]
      omega
    · refine ⟨16, _, 2, 1, rfl, hshift 4 le_rfl, by decide, by decide, fun word y hword => ?_⟩
      rw [lbaWord_one (by omega)]
      rw [Prod.mk.injEq]
      omega
    · refine ⟨20, _, 3, 3, rfl, hshift 5 le_rfl, by decide, by decide, fun word y hword => ?_⟩
      rw [lbaWord_three (by omega)]
      rw [Prod.mk.injEq]
      omega
  · refine ⟨20, _, 3, 3, rfl, hshift 5 (by omega), by decide, by decide, fun word y hword => ?_⟩
    rw [lbaWord_three (by omega)]
    rw [Prod.mk.injEq]
    omega

theorem reads_lba {v : ℕ} (hv : v < 2 ^ 64) : Reads readLba (dencLba v) v := by
  obtain ⟨k, x, pos, low, hstart, hx, hlow, hpos, hlba⟩ := lbaStart_spec v
  have hpow : 2 ^ 31 = 2 ^ pos * 2 ^ (31 - pos) := by rw [← Nat.pow_add]; congr 1; omega
  have hmod := Nat.mod_lt x (Nat.two_pow_pos (31 - pos))
  -- the first word without the flag
  have hword : low ||| x <<< pos % 2 ^ 31 = low + 2 ^ pos * (x % 2 ^ (31 - pos)) := by
    rw [Nat.shiftLeft_eq, Nat.mul_comm, hpow, Nat.mul_mod_mul_left, Nat.or_comm,
      ← two_pow_add_eq_or_of_lt hlow, add_comm]
  have hless : low + 2 ^ pos * (x % 2 ^ (31 - pos)) < 2 ^ 31 := by
    have hmul : 2 ^ pos * (x % 2 ^ (31 - pos) + 1) ≤ 2 ^ pos * 2 ^ (31 - pos) :=
      mul_le_mul_left _ hmod
    rw [Nat.mul_add_one] at hmul
    omega
  have hsplit := mod_add_div' x (2 ^ (31 - pos))
  have hread : ∀ {word bytes}, word < 2 ^ 32 →
      word % 2 ^ 31 = low + 2 ^ pos * (x % 2 ^ (31 - pos)) →
      Reads (if word.testBit 31 then
          readVarintFrom 64 (31 - pos + k) (x % 2 ^ (31 - pos) * 2 ^ k)
        else pure (x % 2 ^ (31 - pos) * 2 ^ k)) bytes v →
      Reads readLba (leBytes 4 word ++ bytes) v := by
    intro word bytes hfit hbits hrest
    refine (reads_leNat 4 hfit).bind ?_
    rwa [hlba word _ hbits]
  simp only [dencLba, hstart, hword, shiftRight_eq_div_pow]
  split_ifs with hend
  · -- nothing follows the word
    have hval : x % 2 ^ (31 - pos) * 2 ^ k = v := by
      rw [hend, zero_mul, add_zero] at hsplit
      rw [hsplit, ← hx]
    refine hread (by omega) (mod_eq_of_lt hless) ?_
    rw [testBit_lt_two_pow hless, hval]
    exact Reads.pure v
  · have hflag : low + 2 ^ pos * (x % 2 ^ (31 - pos)) ||| 2 ^ 31
        = 2 ^ 31 + (low + 2 ^ pos * (x % 2 ^ (31 - pos))) := by
      rw [Nat.or_comm, ← Nat.mul_one (2 ^ 31), ← Nat.two_pow_add_eq_or_of_lt hless]
    have hval : x % 2 ^ (31 - pos) * 2 ^ k + x / 2 ^ (31 - pos) * 2 ^ (31 - pos + k) = v := by
      rw [pow_add, ← mul_assoc, ← add_mul, hsplit, ← hx]
    rw [hflag]
    refine hread (by omega) (by omega) ?_
    rw [testBit_two_pow_add_eq, testBit_lt_two_pow hless]
    have hacc : x % 2 ^ (31 - pos) * 2 ^ k < 2 ^ (31 - pos + k) := by
      rw [pow_add]
      exact mul_lt_mul_of_pos_right hmod (Nat.two_pow_pos k)
    have hfrom := reads_varintFrom (x / 2 ^ (31 - pos)) _ _ hacc (by rwa [hval])
    rwa [hval] at hfrom

end Ceph.Os
