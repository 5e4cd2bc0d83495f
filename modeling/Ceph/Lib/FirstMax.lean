import Mathlib.Data.List.MinMax

/-!
# The first maximum of a list

A loop that keeps the position of the highest value seen so far, and replaces it only by
a higher one, ends at the first maximum (`getElem?_highest`, in terms of `List.argmax`).

* `argmax_append` — the first maximum of two lists after each other.
* `argmax_insert`, `argmax_update` — inserting an element, or raising its value, gives
  that element or leaves the first maximum as it is.
-/

namespace Ceph

open List

variable {α β : Type*} [LinearOrder β]

/-! ## The loop -/

/-- The position and the value of the highest element; `start` is the value before the loop. -/
def highest (start : β) (l : List β) : ℕ × β :=
  l.zipIdx.foldl (fun s p => if p.2 = 0 ∨ s.2 < p.1 then (p.2, p.1) else s) (0, start)

theorem highest_concat (start b : β) (l : List β) : highest start (l ++ [b]) =
      if l.length = 0 ∨ (highest start l).2 < b then (l.length, b) else highest start l := by
  simp [highest, zipIdx_append]

/-- The loop ends at the first maximum. -/
theorem getElem?_highest (start : β) (f : α → β) (l : List α) :
    l[(highest start (l.map f)).1]? = l.argmax f := by
  suffices h : l = [] ∨ ∃ a, l.argmax f = some a ∧ l[(highest start (l.map f)).1]? = some a ∧
      (highest start (l.map f)).2 = f a by
    rcases h with rfl | ⟨a, hmax, hget, -⟩
    · rfl
    · rw [hmax, hget]
  induction l using List.reverseRecOn with
  | nil => exact .inl rfl
  | append_singleton l b ih =>
    right
    rw [map_append, map_singleton, highest_concat, length_map, argmax_concat]
    rcases ih with rfl | ⟨a, hmax, hget, hval⟩
    · exact ⟨b, rfl, rfl, rfl⟩
    have hlt := (List.getElem?_eq_some_iff.1 hget).1
    rw [hmax, hval]
    by_cases h : f a < f b
    · rw [if_pos (.inr h)]
      exact ⟨b, if_pos h, by simp, rfl⟩
    · have hlen : l.length ≠ 0 := by omega
      rw [if_neg (not_or.2 ⟨hlen, h⟩)]
      exact ⟨a, if_neg h, by rw [List.getElem?_append_left hlt, hget], hval⟩

/-! ## Inserting and raising an element -/

variable (f : α → β)

/-- The higher of two, the left one if they are equal. -/
def leftMax : Option α → Option α → Option α
  | none, b => b
  | some a, none => some a
  | some a, some b => if f a < f b then some b else some a

theorem leftMax_assoc (a b c : Option α) :
    leftMax f (leftMax f a b) c = leftMax f a (leftMax f b c) := by
  cases a <;> cases b <;> cases c <;> simp only [leftMax]
  · split_ifs <;> rfl
  · grind [leftMax]

theorem argmax_cons_eq_leftMax (a : α) (l : List α) :
    (a :: l).argmax f = leftMax f (some a) (l.argmax f) := by
  rw [argmax_cons]
  cases l.argmax f <;> rfl

theorem argmax_append (l₁ l₂ : List α) :
    (l₁ ++ l₂).argmax f = leftMax f (l₁.argmax f) (l₂.argmax f) := by
  induction l₁ with
  | nil => rfl
  | cons a l₁ ih =>
    rw [cons_append, argmax_cons_eq_leftMax, argmax_cons_eq_leftMax, ih, leftMax_assoc]

section

variable {f : α → β} {pre post : List α} {e e' : α}

/-- Inserting an element gives that element or changes nothing. -/
theorem argmax_insert : (pre ++ e :: post).argmax f = some e ∨
      (pre ++ e :: post).argmax f = (pre ++ post).argmax f := by
  rw [argmax_append, argmax_append, argmax_cons_eq_leftMax]
  generalize pre.argmax f = p, post.argmax f = q
  cases p <;> cases q <;> grind [leftMax]

/-- Raising an element gives that element or changes nothing. -/
theorem argmax_update (h : f e ≤ f e') : (pre ++ e' :: post).argmax f = some e' ∨
      (pre ++ e' :: post).argmax f = (pre ++ e :: post).argmax f := by
  rw [argmax_append, argmax_append, argmax_cons_eq_leftMax, argmax_cons_eq_leftMax]
  generalize pre.argmax f = p, post.argmax f = q
  cases p <;> cases q <;> grind [leftMax]

end

end Ceph
