import Mathlib

/-!
# Comparing strings

The three-way comparison of two strings: at the first position where they differ, or
by length if one is the beginning of the other.
-/

namespace Ceph

variable {α : Type*} [LinearOrder α]

/-- The three-way comparison of two strings. -/
def lexCmp : List α → List α → Ordering
  | [], [] => .eq
  | [], _ :: _ => .lt
  | _ :: _, [] => .gt
  | a :: s, b :: t => (cmp a b).then (lexCmp s t)

@[simp] theorem lexCmp_nil_nil : lexCmp ([] : List α) [] = .eq := rfl

@[simp] theorem lexCmp_nil_cons (b : α) (t : List α) : lexCmp [] (b :: t) = .lt := rfl

@[simp] theorem lexCmp_cons_nil (a : α) (s : List α) : lexCmp (a :: s) [] = .gt := rfl

@[simp] theorem lexCmp_cons_cons (a b : α) (s t : List α) :
    lexCmp (a :: s) (b :: t) = (cmp a b).then (lexCmp s t) := rfl

/-- It is the comparison of the lexicographic order. -/
theorem lexCmp_compares (s t : List α) : (lexCmp s t).Compares s t := by
  induction s generalizing t with
  | nil =>
    cases t with
    | nil => rfl
    | cons b t => exact List.nil_lt_cons b t
  | cons a s ih =>
    cases t with
    | nil => exact List.nil_lt_cons a s
    | cons b t =>
      rw [lexCmp_cons_cons]
      rcases lt_trichotomy a b with hlt | rfl | hgt
      · rw [(cmp_eq_lt_iff _ _).2 hlt]
        exact List.cons_lt_cons_iff.2 (.inl hlt)
      · have := ih t
        cases hcmp : lexCmp s t <;> simp_all [Ordering.Compares]
      · rw [(cmp_eq_gt_iff _ _).2 hgt]
        exact List.cons_lt_cons_iff.2 (.inl hgt)

/-- Only equal strings compare as equal. -/
theorem lexCmp_eq_eq_iff {s t : List α} : lexCmp s t = .eq ↔ s = t := (lexCmp_compares s t).eq_eq

theorem lexCmp_eq_lt_iff {s t : List α} : lexCmp s t = .lt ↔ s < t := (lexCmp_compares s t).eq_lt

theorem lexCmp_eq_gt_iff {s t : List α} : lexCmp s t = .gt ↔ t < s := (lexCmp_compares s t).eq_gt

@[simp] theorem lexCmp_self (s : List α) : lexCmp s s = .eq := lexCmp_eq_eq_iff.2 rfl

/-- Beginnings of the same length are compared first. -/
theorem lexCmp_append {p q s t : List α} (h : p.length = q.length) :
    lexCmp (p ++ s) (q ++ t) = (lexCmp p q).then (lexCmp s t) := by
  induction p generalizing q with
  | nil =>
    rw [List.eq_nil_of_length_eq_zero h.symm]
    rfl
  | cons a p ih =>
    cases q with
    | nil => cases h
    | cons b q =>
      rw [List.cons_append, List.cons_append, lexCmp_cons_cons, ih (Nat.succ.inj h),
        lexCmp_cons_cons, Ordering.then_assoc]

end Ceph
