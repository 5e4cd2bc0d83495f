import Ceph.Lib.LexCmp

/-!
# Numerals of a fixed width

Numbers written with a fixed number of digits, the first one first.  As strings they
compare like the numbers, different numbers have different numerals, and a numeral is read
back (`ofNumeral_numeral`).  Strings are lists of characters, with their lexicographic order.
-/

namespace Ceph

open List

/-- The numeral of `n` in base `b` with `w` digits, written with the characters `c`. -/
def numeral (c : ℕ → Char) (b : ℕ) : ℕ → ℕ → List Char
  | 0, _ => []
  | w + 1, n => c (n / b ^ w) :: numeral c b w (n % b ^ w)

variable {c : ℕ → Char} {b : ℕ}

@[simp] theorem length_numeral (w n : ℕ) : (numeral c b w n).length = w := by
  induction w generalizing n with
  | zero => rfl
  | succ w ih => simp [numeral, ih]

/-- The first digit decides, and then the others. -/
theorem cmp_eq_div_mod (n m B : ℕ) :
    cmp n m = (cmp (n / B) (m / B)).then (cmp (n % B) (m % B)) := by
  have hn := Nat.div_add_mod n B
  have hm := Nat.div_add_mod m B
  rcases lt_trichotomy (n / B) (m / B) with hlt | heq | hgt
  · have hnm : n < m := not_le.1 fun h => absurd (Nat.div_le_div_right h) hlt.not_ge
    rw [(cmp_eq_lt_iff _ _).2 hlt, (cmp_eq_lt_iff _ _).2 hnm]
    rfl
  · rw [heq] at hn
    have hlt : n < m ↔ n % B < m % B := by omega
    have hgt : m < n ↔ m % B < n % B := by omega
    rw [heq, cmp_self_eq_eq, Ordering.eq_then]
    simp only [cmp, cmpUsing, hlt, hgt]
  · have hnm : m < n := not_le.1 fun h => absurd (Nat.div_le_div_right h) hgt.not_ge
    rw [(cmp_eq_gt_iff _ _).2 hgt, (cmp_eq_gt_iff _ _).2 hnm]
    rfl

/-- A number has one digit and the rest. -/
theorem digit_lt {w n : ℕ} (hn : n < b ^ (w + 1)) : n / b ^ w < b ∧ n % b ^ w < b ^ w := by
  have hpos : 0 < b ^ w := Nat.pos_of_ne_zero fun h0 => by
    rw [Nat.pow_succ, h0] at hn
    omega
  exact ⟨Nat.div_lt_of_lt_mul (Nat.pow_succ b w ▸ hn), Nat.mod_lt n hpos⟩

section

variable (hc : ∀ i < b, ∀ j < b, cmp (c i) (c j) = cmp i j) {w n m : ℕ} (hn : n < b ^ w)
  (hm : m < b ^ w)

include hc hn hm

/-- The three-way comparison of numerals. -/
theorem lexCmp_numeral : lexCmp (numeral c b w n) (numeral c b w m) = cmp n m := by
  induction w generalizing n m with
  | zero =>
    rw [Nat.pow_zero] at hn hm
    obtain rfl : n = m := by omega
    rw [lexCmp_self, cmp_self_eq_eq]
  | succ w ih =>
    obtain ⟨hqn, hrn⟩ := digit_lt hn
    obtain ⟨hqm, hrm⟩ := digit_lt hm
    rw [numeral, numeral, lexCmp_cons_cons, ih hrn hrm, hc _ hqn _ hqm, ← cmp_eq_div_mod]

/-- Numerals compare like the numbers. -/
theorem numeral_lt_iff : numeral c b w n < numeral c b w m ↔ n < m := by
  rw [← lexCmp_eq_lt_iff, lexCmp_numeral hc hn hm, cmp_eq_lt_iff]

theorem numeral_inj (h : numeral c b w n = numeral c b w m) : n = m := by
  rwa [← lexCmp_eq_eq_iff, lexCmp_numeral hc hn hm, cmp_eq_eq_iff] at h

end

/-- The number that a numeral stands for. -/
def ofNumeral (d : Char → ℕ) (b : ℕ) (s : List Char) : ℕ := s.foldl (fun n ch => n * b + d ch) 0

/-- A numeral is read back. -/
theorem ofNumeral_numeral {d : Char → ℕ} (hd : ∀ i < b, d (c i) = i) {w n : ℕ} (hn : n < b ^ w) :
    ofNumeral d b (numeral c b w n) = n := by
  suffices h : ∀ acc, (numeral c b w n).foldl (fun n ch => n * b + d ch) acc = acc * b ^ w + n by
    rw [ofNumeral, h, Nat.zero_mul, Nat.zero_add]
  induction w generalizing n with
  | zero =>
    rw [Nat.pow_zero] at hn
    intro acc
    simp only [numeral, foldl_nil, Nat.pow_zero]
    omega
  | succ w ih =>
    obtain ⟨hq, hr⟩ := digit_lt hn
    intro acc
    rw [numeral, foldl_cons, ih hr, hd _ hq, Nat.add_mul, Nat.add_assoc, Nat.div_add_mod',
      Nat.pow_succ', Nat.mul_assoc]

/-- The first digits. -/
theorem take_numeral (c : ℕ → Char) (b k r n : ℕ) :
    (numeral c b (k + r) n).take k = numeral c b k (n / b ^ r) := by
  induction k generalizing n with
  | zero => rfl
  | succ k ih =>
    rw [Nat.succ_add, numeral, numeral, take_succ_cons, ih, Nat.pow_add, Nat.div_div_eq_div_mul,
      Nat.mul_comm, Nat.mod_mul_right_div_self]

/-- Strings with beginnings of the same length. -/
theorem append_lt_append_iff {p q s t : List Char} (hlen : p.length = q.length) :
    p ++ s < q ++ t ↔ p < q ∨ p = q ∧ s < t := by
  rw [← lexCmp_eq_lt_iff, lexCmp_append hlen, Ordering.then_eq_lt, lexCmp_eq_lt_iff,
    lexCmp_eq_lt_iff, lexCmp_eq_eq_iff]

end Ceph
