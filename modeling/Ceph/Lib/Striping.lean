import Mathlib

/-!
# Striping

Bytes dealt out in units over a number of objects, row after row, until the objects have
their number of rows; the next bytes go to a new set of objects.

* `Striping.toFile_toObject`, `Striping.toObject_toFile` — the map is a bijection between
  the bytes and the places in the objects.
* `Striping.toFile_lt_iff` — the order of the bytes, in terms of set, row, position and
  offset.
* `Striping.isNumObjects_numObjects` — how many objects the first bytes reach.
-/

namespace Ceph

open Nat

/-- Units of `unit` bytes over `count` objects of `rows` units each. -/
structure Striping where
  unit : ℕ
  count : ℕ
  rows : ℕ
  unit_pos : 0 < unit
  count_pos : 0 < count
  rows_pos : 0 < rows

namespace Striping

variable (s : Striping)

/-- The size of an object. -/
def size : ℕ := s.rows * s.unit

/-- The object of a byte, and its offset in the object. -/
def toObject (b : ℕ) : ℕ × ℕ :=
  (b / s.unit / s.count / s.rows * s.count + b / s.unit % s.count,
    b / s.unit / s.count % s.rows * s.unit + b % s.unit)

/-- The byte at an offset of an object. -/
def toFile (o x : ℕ) : ℕ :=
  ((o / s.count * s.rows + x / s.unit) * s.count + o % s.count) * s.unit + x % s.unit

theorem size_pos : 0 < s.size := mul_pos s.rows_pos s.unit_pos

/-! ## Digits -/

theorem digit_div {a b n : ℕ} (h : b < n) : (a * n + b) / n = a := by
  rw [add_comm, add_mul_div_right _ _ (by omega), div_eq_of_lt h, zero_add]

theorem digit_mod {a b n : ℕ} (h : b < n) : (a * n + b) % n = b := by
  rw [add_comm, add_mul_mod_self_right, mod_eq_of_lt h]

/-- Numbers compare by their first digit, and then by their second. -/
theorem digit_lt_iff {a b c d n : ℕ} (hb : b < n) (hd : d < n) :
    a * n + b < c * n + d ↔ a < c ∨ a = c ∧ b < d := by
  constructor
  · intro h
    rcases lt_trichotomy a c with hac | rfl | hac
    · exact .inl hac
    · exact .inr ⟨rfl, by omega⟩
    · have : (c + 1) * n ≤ a * n := mul_le_mul_right n hac
      rw [add_mul] at this
      omega
  · rintro (h | ⟨rfl, h⟩)
    · have : (a + 1) * n ≤ c * n := mul_le_mul_right n h
      rw [add_mul] at this
      omega
    · omega

theorem digit_eq_iff {a b c d n : ℕ} (hb : b < n) (hd : d < n) :
    a * n + b = c * n + d ↔ a = c ∧ b = d := by
  constructor
  · intro h
    have hdiv := congrArg (· / n) h
    have hmod := congrArg (· % n) h
    simp only [digit_div hb, digit_div hd, digit_mod hb, digit_mod hd] at hdiv hmod
    exact ⟨hdiv, hmod⟩
  · rintro ⟨rfl, rfl⟩
    rfl

/-! ## The bijection -/

theorem toObject_snd_lt (b : ℕ) : (s.toObject b).2 < s.size := by
  have hrow := mod_lt (b / s.unit / s.count) s.rows_pos
  have hoff := mod_lt b s.unit_pos
  have hle : (b / s.unit / s.count % s.rows + 1) * s.unit ≤ s.rows * s.unit :=
    mul_le_mul_right s.unit hrow
  rw [add_mul] at hle
  simp only [toObject, size]
  omega

theorem toObject_fst_le (b : ℕ) : (s.toObject b).1 ≤ b := by
  have hset : b / s.unit / s.count / s.rows ≤ b / s.unit / s.count := div_le_self _ _
  calc (s.toObject b).1 ≤ b / s.unit / s.count * s.count + b / s.unit % s.count :=
        Nat.add_le_add_right (Nat.mul_le_mul_right _ hset) _
    _ = b / s.unit := div_add_mod' _ _
    _ ≤ b := div_le_self _ _

theorem toFile_toObject (b : ℕ) : s.toFile (s.toObject b).1 (s.toObject b).2 = b := by
  simp only [toFile, toObject]
  rw [digit_div (mod_lt _ s.count_pos), digit_mod (mod_lt _ s.count_pos),
    digit_div (mod_lt _ s.unit_pos), digit_mod (mod_lt _ s.unit_pos),
    div_add_mod', div_add_mod', div_add_mod']

theorem toObject_toFile (o : ℕ) {x : ℕ} (hx : x < s.size) : s.toObject (s.toFile o x) = (o, x) := by
  have hrow : x / s.unit < s.rows := Nat.div_lt_of_lt_mul (by rwa [Nat.mul_comm])
  simp only [toFile, toObject]
  rw [digit_div (mod_lt _ s.unit_pos), digit_mod (mod_lt _ s.unit_pos),
    digit_div (mod_lt _ s.count_pos), digit_mod (mod_lt _ s.count_pos),
    digit_div hrow, digit_mod hrow, div_add_mod', div_add_mod']

/-- The bytes of a unit lie next to each other. -/
theorem toFile_add (o : ℕ) {x i : ℕ} (h : x % s.unit + i < s.unit) :
    s.toFile o (x + i) = s.toFile o x + i := by
  have hdiv : (x + i) / s.unit = x / s.unit := by
    conv_lhs => rw [← div_add_mod' x s.unit, add_assoc]
    exact digit_div h
  have hmod : (x + i) % s.unit = x % s.unit + i := by
    conv_lhs => rw [← div_add_mod' x s.unit, add_assoc]
    exact digit_mod h
  rw [toFile, toFile, hdiv, hmod, add_assoc]

theorem toFile_strictMono (o : ℕ) : StrictMono (s.toFile o) := by
  intro x y hxy
  have hx := mod_lt x s.unit_pos
  have hy := mod_lt y s.unit_pos
  have ho := mod_lt o s.count_pos
  have hdigits : x / s.unit < y / s.unit ∨ x / s.unit = y / s.unit ∧ x % s.unit < y % s.unit := by
    rwa [← digit_lt_iff hx hy, div_add_mod', div_add_mod']
  rw [toFile, toFile, digit_lt_iff hx hy, digit_lt_iff ho ho, digit_eq_iff ho ho]
  omega

/-- **The order of the bytes**: by set, row, position in the row and offset in the unit. -/
theorem toFile_lt_iff {o x T : ℕ} (hx : x < s.size) :
    s.toFile o x < T ↔ o / s.count < T / s.unit / s.count / s.rows ∨
        o / s.count = T / s.unit / s.count / s.rows ∧ (x / s.unit < T / s.unit / s.count % s.rows ∨
            x / s.unit = T / s.unit / s.count % s.rows ∧ (o % s.count < T / s.unit % s.count ∨
                o % s.count = T / s.unit % s.count ∧ x % s.unit < T % s.unit)) := by
  have hrow : x / s.unit < s.rows := Nat.div_lt_of_lt_mul (by rwa [Nat.mul_comm])
  conv_lhs => rw [← s.toFile_toObject T]
  simp only [toFile, toObject]
  rw [digit_div (mod_lt _ s.count_pos), digit_mod (mod_lt _ s.count_pos),
    digit_div (mod_lt _ s.unit_pos), digit_mod (mod_lt _ s.unit_pos),
    digit_lt_iff (mod_lt _ s.unit_pos) (mod_lt _ s.unit_pos),
    digit_lt_iff (mod_lt _ s.count_pos) (mod_lt _ s.count_pos),
    digit_lt_iff hrow (mod_lt _ s.rows_pos)]
  rw [digit_eq_iff (mod_lt _ s.count_pos) (mod_lt _ s.count_pos),
    digit_eq_iff hrow (mod_lt _ s.rows_pos)]
  tauto

/-! ## How far the first bytes reach -/

/-- `m` is one more than the largest offset in object `o` of a byte below `T`, or zero. -/
def IsTruncated (o T m : ℕ) : Prop :=
  (∀ b < T, (s.toObject b).1 = o → (s.toObject b).2 < m) ∧
    (m = 0 ∨ ∃ b < T, (s.toObject b).1 = o ∧ (s.toObject b).2 + 1 = m)

theorem isTruncated_of_lt_iff {o T m : ℕ} (hm : m ≤ s.size)
    (h : ∀ x < s.size, s.toFile o x < T ↔ x < m) : s.IsTruncated o T m := by
  constructor
  · rintro b hb rfl
    rwa [← h _ (s.toObject_snd_lt b), s.toFile_toObject]
  · rcases Nat.eq_zero_or_pos m with hzero | hpos
    · exact .inl hzero
    · have hx : m - 1 < s.size := by omega
      refine .inr ⟨s.toFile o (m - 1), (h _ hx).2 (by omega), ?_⟩
      rw [s.toObject_toFile o hx]
      exact ⟨rfl, by omega⟩

/-- `n` is one more than the largest object number of a byte below `T`. -/
def IsNumObjects (T n : ℕ) : Prop :=
  (∀ b < T, (s.toObject b).1 < n) ∧ ∃ b < T, (s.toObject b).1 + 1 = n

/-- The number of objects that the bytes below `T` reach: those of the full sets, and in the last
one as many as its first row needs. -/
def numObjects (T : ℕ) : ℕ :=
  T / (s.size * s.count) * s.count + min s.count ((T % (s.size * s.count) + s.unit - 1) / s.unit)

theorem toFile_zero (o : ℕ) :
    s.toFile o 0 = o / s.count * (s.size * s.count) + o % s.count * s.unit := by
  rw [toFile, Nat.zero_div, Nat.zero_mod, size]
  ring

/-- An object is reached when its first byte is. -/
theorem toFile_zero_lt_iff (o T : ℕ) : s.toFile o 0 < T ↔ o < s.numObjects T := by
  have hcount := s.count_pos
  have hpos := mod_lt o hcount
  have hrow : o % s.count * s.unit < s.size * s.count := by
    calc o % s.count * s.unit < s.count * s.unit := mul_lt_mul_of_pos_right hpos s.unit_pos
      _ ≤ s.rows * (s.count * s.unit) := Nat.le_mul_of_pos_left _ s.rows_pos
      _ = s.size * s.count := by rw [size]; ring
  have hperiod : 0 < s.size * s.count := mul_pos s.size_pos hcount
  have hrem := mod_lt T hperiod
  have hceil : o % s.count * s.unit < T % (s.size * s.count) ↔
      o % s.count < (T % (s.size * s.count) + s.unit - 1) / s.unit := by
    have hunit := s.unit_pos
    rw [lt_div_iff_mul_lt hunit]
    omega
  conv_lhs => rw [s.toFile_zero, ← div_add_mod' T (s.size * s.count), digit_lt_iff hrow hrem,
    hceil]
  conv_rhs => rw [← div_add_mod' o s.count, numObjects]
  rcases lt_or_ge ((T % (s.size * s.count) + s.unit - 1) / s.unit) s.count with h | h
  · rw [min_eq_right h.le, digit_lt_iff hpos h]
  · have hsucc : T / (s.size * s.count) * s.count + s.count =
        (T / (s.size * s.count) + 1) * s.count + 0 := by ring
    rw [min_eq_left h, hsucc, digit_lt_iff hpos hcount]
    omega

theorem isNumObjects_numObjects {T : ℕ} (hT : 0 < T) : s.IsNumObjects T (s.numObjects T) := by
  have hpos : 0 < s.numObjects T := by
    rw [← s.toFile_zero_lt_iff, s.toFile_zero, Nat.zero_div, Nat.zero_mod]
    omega
  constructor
  · intro b hb
    rw [← s.toFile_zero_lt_iff]
    have hle := (s.toFile_strictMono (s.toObject b).1).monotone (zero_le (s.toObject b).2)
    rw [s.toFile_toObject] at hle
    omega
  · refine ⟨s.toFile (s.numObjects T - 1) 0, (s.toFile_zero_lt_iff _ _).2 (by omega), ?_⟩
    rw [s.toObject_toFile _ s.size_pos]
    omega

end Striping

end Ceph
