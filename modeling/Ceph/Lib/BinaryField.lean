import Mathlib

/-!
# Binary extension rings

Words of `w` bits with exclusive-or as addition and carry-less multiplication
reduced modulo `x ^ w + poly`.  For a suitable `poly` this is the field with
`2 ^ w` elements; nothing below depends on which `poly` is taken.

* `BinaryField w poly` — the carrier, one word.
* `BinaryField.shift` — multiplication by `x`, the step of the multiplication.
* The additive group is of characteristic two (`add_self`), multiplication is
  bilinear (the `NonUnitalNonAssocRing` instance), and the words are a commutative ring.
-/

/-- A word of `w` bits, read as a polynomial over the two-element field modulo
`x ^ w + poly`. -/
@[ext]
structure BinaryField (w : ℕ) (poly : BitVec w) where
  bits : BitVec w
  deriving DecidableEq, Repr

namespace BinaryField

open List Function

variable {w : ℕ} {poly : BitVec w}

instance : Zero (BinaryField w poly) := ⟨⟨0#w⟩⟩

instance : One (BinaryField w poly) := ⟨⟨1#w⟩⟩

instance : Add (BinaryField w poly) := ⟨fun a b => ⟨a.bits ^^^ b.bits⟩⟩

instance : Neg (BinaryField w poly) := ⟨id⟩

@[simp] theorem bits_zero : (0 : BinaryField w poly).bits = 0#w := rfl

@[simp] theorem bits_one : (1 : BinaryField w poly).bits = 1#w := rfl

variable (a b : BinaryField w poly)

@[simp] theorem bits_add : (a + b).bits = a.bits ^^^ b.bits := rfl

@[simp] theorem bits_neg (a : BinaryField w poly) : (-a).bits = a.bits := rfl

instance : AddCommGroup (BinaryField w poly) where
  add_assoc a b c := by ext1; simp [BitVec.xor_assoc]
  zero_add a := by ext1; simp
  add_zero a := by ext1; simp
  add_comm a b := by ext1; simp [BitVec.xor_comm]
  neg_add_cancel a := by ext1; simp
  nsmul := nsmulRec
  zsmul := zsmulRec

/-- Every element is its own opposite. -/
@[simp] theorem add_self (a : BinaryField w poly) : a + a = 0 := neg_add_cancel a

theorem neg_eq (a : BinaryField w poly) : -a = a := rfl

/-- A sum vanishes exactly when its two halves agree. -/
theorem add_eq_zero_iff {a b : BinaryField w poly} : a + b = 0 ↔ a = b := by
  rw [add_eq_zero_iff_eq_neg, neg_eq]

/-! ## Multiplication -/

/-- Multiplication by `x`: shift by one and reduce when a bit falls out. -/
def shift (a : BinaryField w poly) : BinaryField w poly :=
  ⟨(a.bits <<< 1) ^^^ (if a.bits.msb then poly else 0#w)⟩

theorem shift_add : shift (a + b) = shift a + shift b := by
  ext1
  simp only [shift, bits_add, BitVec.shiftLeft_xor_distrib, BitVec.msb_xor]
  cases a.bits.msb <;> cases b.bits.msb <;> simp
  · ac_rfl
  · ac_rfl
  · rw [show a.bits <<< 1 ^^^ poly ^^^ (b.bits <<< 1 ^^^ poly)
      = a.bits <<< 1 ^^^ b.bits <<< 1 ^^^ (poly ^^^ poly) by ac_rfl]
    simp

theorem shift_zero : shift (0 : BinaryField w poly) = 0 := by
  ext1
  simp [shift]

theorem iterate_shift_add (i : ℕ) (a b : BinaryField w poly) :
    shift^[i] (a + b) = shift^[i] a + shift^[i] b := by
  induction i generalizing a b with
  | zero => rfl
  | succ i ih => rw [iterate_succ_apply, shift_add, ih]; rfl

theorem iterate_shift_zero (i : ℕ) : shift^[i] (0 : BinaryField w poly) = 0 :=
  iterate_fixed shift_zero i

/-- The partial product contributed by bit `i` of `a`. -/
def partialProduct (i : ℕ) : BinaryField w poly :=
  if a.bits.getLsbD i then shift^[i] b else 0

theorem partialProduct_add_left (a a' b : BinaryField w poly) (i : ℕ) :
    partialProduct (a + a') b i = partialProduct a b i + partialProduct a' b i := by
  simp only [partialProduct, bits_add, BitVec.getLsbD_xor]
  cases a.bits.getLsbD i <;> cases a'.bits.getLsbD i <;> simp

theorem partialProduct_add_right (a b b' : BinaryField w poly) (i : ℕ) :
    partialProduct a (b + b') i = partialProduct a b i + partialProduct a b' i := by
  simp only [partialProduct, iterate_shift_add]
  cases a.bits.getLsbD i <;> simp

instance : Mul (BinaryField w poly) :=
  ⟨fun a b => ((range w).map (partialProduct a b)).sum⟩

theorem mul_def : a * b = ((range w).map (partialProduct a b)).sum := rfl

instance : NonUnitalNonAssocRing (BinaryField w poly) where
  left_distrib a b c := by
    rw [mul_def, funext (partialProduct_add_right a b c), sum_map_add]
    rfl
  right_distrib a b c := by
    rw [mul_def, funext (partialProduct_add_left a b c), sum_map_add]
    rfl
  zero_mul b := by
    rw [mul_def, sum_eq_zero]
    simp [partialProduct]
  mul_zero a := by
    rw [mul_def, sum_eq_zero]
    simp [partialProduct, iterate_shift_zero]

/-! ## The ring

Multiplication by `a` is a polynomial in `shift`, so any two multiplications commute, and
`a` is what it makes of `1`.  Commutativity and associativity follow from that. -/

theorem shift_sum (l : List (BinaryField w poly)) : shift l.sum = (l.map shift).sum := by
  induction l with
  | nil => exact shift_zero
  | cons a l ih => rw [sum_cons, shift_add, ih, map_cons, sum_cons]

theorem mul_shift : a * shift b = shift (a * b) := by
  rw [mul_def, mul_def, shift_sum, map_map]
  congr 1
  refine map_congr_left fun i _ => ?_
  simp only [partialProduct, comp_apply]
  cases a.bits.getLsbD i
  · exact shift_zero.symm
  · exact (iterate_succ_apply shift i b).symm.trans
      (iterate_succ_apply' shift i b)

theorem mul_iterate_shift (i : ℕ) : a * shift^[i] b = shift^[i] (a * b) := by
  induction i generalizing b with
  | zero => rfl
  | succ i ih => rw [iterate_succ_apply, ih, mul_shift]; rfl

theorem mul_listSum (a : BinaryField w poly) (l : List (BinaryField w poly)) :
    a * l.sum = (l.map (a * ·)).sum := by
  induction l with
  | nil => exact mul_zero a
  | cons b l ih => rw [sum_cons, mul_add, ih, map_cons, sum_cons]

/-- Two multiplications commute. -/
theorem mul_left_comm' (a b c : BinaryField w poly) : a * (b * c) = b * (a * c) := by
  rw [mul_def b c, mul_listSum, map_map]
  congr 1
  refine map_congr_left fun i _ => ?_
  simp only [partialProduct, comp_apply]
  cases b.bits.getLsbD i
  · exact mul_zero a
  · exact mul_iterate_shift a c i


theorem iterate_shift_one {i : ℕ} (hi : i < w) :
    (shift^[i] (1 : BinaryField w poly)).bits = BitVec.twoPow w i := by
  induction i with
  | zero => exact BitVec.twoPow_zero.symm
  | succ i ih =>
    have hmsb : (BitVec.twoPow w i).msb = false := by
      rw [BitVec.msb_eq_getLsbD_last, BitVec.getLsbD_twoPow]
      simp only [Bool.and_eq_false_imp, decide_eq_true_eq, decide_eq_false_iff_not]
      omega
    rw [iterate_succ_apply', shift, ih (by omega), hmsb]
    simp [BitVec.twoPow_eq, BitVec.shiftLeft_add]

/-- The bits collected so far. -/
theorem getLsbD_sum_partialProduct_one (a : BinaryField w poly) {n : ℕ} (hn : n ≤ w) (j : ℕ) :
    (((range n).map (partialProduct a 1)).sum).bits.getLsbD j =
      (decide (j < n) && a.bits.getLsbD j) := by
  induction n with
  | zero => simp
  | succ n ih =>
    rw [range_succ, map_append, sum_append, bits_add, BitVec.getLsbD_xor,
      ih (by omega), map_singleton, sum_singleton]
    have hpart : (partialProduct a 1 n).bits.getLsbD j = (decide (j = n) && a.bits.getLsbD j) := by
      rw [partialProduct]
      by_cases ha : a.bits.getLsbD n
      · rw [if_pos ha, iterate_shift_one (by omega), BitVec.getLsbD_twoPow]
        by_cases hj : j = n
        · subst hj
          simp [ha]
          omega
        · simp [hj, Ne.symm hj]
      · rw [if_neg ha]
        by_cases hj : j = n
        · simp [hj, ha]
        · simp [hj]
    rw [hpart]
    rcases lt_trichotomy j n with hj | hj | hj
    · simp [hj, hj.ne, Nat.lt_succ_of_lt hj]
    · simp [hj]
    · simp [hj.ne', hj.not_gt, show ¬ j < n + 1 by omega]

theorem mul_one' (a : BinaryField w poly) : a * 1 = a := by
  ext1
  refine BitVec.eq_of_getLsbD_eq fun j hj => ?_
  rw [mul_def, getLsbD_sum_partialProduct_one a le_rfl, decide_eq_true hj, Bool.true_and]

theorem mul_comm' : a * b = b * a := by
  calc a * b = a * (b * 1) := by rw [mul_one' b]
    _ = b * (a * 1) := mul_left_comm' a b 1
    _ = b * a := by rw [mul_one' a]

instance : CommRing (BinaryField w poly) where
  mul_assoc a b c := by
    rw [mul_comm' (a * b) c, mul_left_comm' c a b, mul_comm' c b]
  one_mul a := by rw [mul_comm', mul_one']
  mul_one := mul_one'
  mul_comm := mul_comm'

end BinaryField
