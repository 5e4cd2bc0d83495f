import Mathlib.Data.Matrix.Mul

/-!
# Solving linear systems with a given inverse

If `y` is what a square matrix `b` makes of `x`, a left inverse of `b` gives back the
entries of `x` and every linear combination of them.
-/

namespace Ceph.LinearSystem

open Finset

variable {R ι : Type*} [CommRing R] [Fintype ι] [DecidableEq ι]

section

variable {b d : Matrix ι ι R} {x y : ι → R} (h : d * b = 1) (hy : ∀ i, y i = ∑ j, b i j * x j)

include h hy

/-- Each unknown is a combination of the values. -/
theorem eq_sum_of_inverse (j : ι) : x j = ∑ i, d j i * y i := by
  have hmul : y = b.mulVec x := funext hy
  calc x j = ((1 : Matrix ι ι R).mulVec x) j := by rw [Matrix.one_mulVec]
    _ = (d.mulVec y) j := by rw [hmul, Matrix.mulVec_mulVec, h]
    _ = ∑ i, d j i * y i := rfl

/-- So is each combination of the unknowns. -/
theorem sum_eq_of_inverse (a : ι → R) : ∑ j, a j * x j = ∑ i, (∑ j, d j i * a j) * y i := by
  calc ∑ j, a j * x j = ∑ j, a j * ∑ i, d j i * y i :=
        sum_congr rfl fun j _ => by rw [← eq_sum_of_inverse h hy j]
    _ = ∑ j, ∑ i, d j i * a j * y i := sum_congr rfl fun j _ => by
        rw [mul_sum]
        exact sum_congr rfl fun i _ => by ring
    _ = ∑ i, (∑ j, d j i * a j) * y i := by
        rw [sum_comm]
        exact sum_congr rfl fun i _ => by rw [sum_mul]

end

end Ceph.LinearSystem
