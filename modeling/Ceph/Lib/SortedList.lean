import Mathlib.Data.Finset.Sort
import Mathlib.Data.List.DropRight

/-!
# Cutting a list at a property

A property that, once it holds along a list, holds to its end (or to its
beginning) cuts the list in two.  Walking from one end while it holds then gives
the same entries as filtering.
-/

namespace Ceph.SortedList

open List

universe u

variable {α : Type u} {p : α → Bool} {l : List α}

/-- The members of a finite set, the smallest first. -/
def ascending [LinearOrder α] (s : Finset α) : List α := s.sort (· ≤ ·)

theorem mem_ascending [LinearOrder α] {s : Finset α} {a : α} : a ∈ ascending s ↔ a ∈ s :=
  Finset.mem_sort _

/-- Along `l` the property is lost once and for all. -/
def DownClosed (p : α → Bool) (l : List α) : Prop := l.Pairwise fun a b => p b → p a

theorem DownClosed.not (h : DownClosed p l) : l.Pairwise fun a b => !p a → !p b :=
  h.imp fun {a b} hab ha => by
    cases hb : p b
    · rfl
    · rw [hab hb] at ha
      exact absurd ha (by decide)

theorem takeWhile_eq_filter (h : DownClosed p l) : l.takeWhile p = l.filter p := by
  induction l with
  | nil => rfl
  | cons a l ih =>
    obtain ⟨ha, hl⟩ := pairwise_cons.1 h
    cases hp : p a with
    | true => rw [takeWhile_cons_of_pos hp, filter_cons_of_pos hp, ih hl]
    | false =>
      rw [takeWhile_cons_of_neg (by simp [hp]), filter_cons_of_neg (by simp [hp])]
      refine (filter_eq_nil_iff.2 fun b hb hpb => ?_).symm
      exact absurd (ha b hb hpb) (by simp [hp])

theorem dropWhile_eq_filter (h : DownClosed p l) : l.dropWhile p = l.filter fun a => !p a := by
  induction l with
  | nil => rfl
  | cons a l ih =>
    obtain ⟨-, hl⟩ := pairwise_cons.1 h
    cases hp : p a with
    | true =>
      rw [dropWhile_cons_of_pos hp, filter_cons_of_neg (by simp [hp]), ih hl]
    | false =>
      rw [dropWhile_cons_of_neg (by simp [hp])]
      refine (filter_eq_self.2 fun b hb => ?_).symm
      rcases mem_cons.1 hb with rfl | hb
      · simp [hp]
      · exact (pairwise_cons.1 h.not).1 b hb (by simp [hp])

theorem DownClosed.reverse (h : DownClosed (fun a => !p a) l) : DownClosed p l.reverse :=
  pairwise_reverse.2 (h.imp fun {a b} hab ha => by
    by_contra hb
    have hnot := hab (by simp [hb])
    simp [ha] at hnot)

theorem rtakeWhile_eq_filter (h : DownClosed (fun a => !p a) l) : l.rtakeWhile p = l.filter p := by
  rw [rtakeWhile, takeWhile_eq_filter h.reverse, filter_reverse, reverse_reverse]

theorem rdropWhile_eq_filter (h : DownClosed (fun a => !p a) l) :
    l.rdropWhile p = l.filter fun a => !p a := by
  rw [rdropWhile, dropWhile_eq_filter h.reverse, filter_reverse, reverse_reverse]

/-- The two parts make up the list. -/
theorem filter_append_filter_not (h : DownClosed p l) :
    l.filter p ++ l.filter (fun a => !p a) = l := by
  rw [← takeWhile_eq_filter h, ← dropWhile_eq_filter h, takeWhile_append_dropWhile]

/-- Walking back from the end stays in the second part if it takes nothing of the
first. -/
theorem rtakeWhile_append_of_notMem {a b : List α} (h : ∀ x ∈ (a ++ b).rtakeWhile p, x ∉ a) :
    (a ++ b).rtakeWhile p = b.rtakeWhile p := by
  induction b using List.reverseRecOn with
  | nil =>
    rw [append_nil] at h ⊢
    refine eq_nil_iff_forall_not_mem.2 fun x hx => h x hx ?_
    exact (rtakeWhile_suffix p a).subset hx
  | append_singleton b y ih =>
    rw [← append_assoc] at h ⊢
    cases hp : p y with
    | true =>
      rw [rtakeWhile_concat_pos _ _ _ hp] at h ⊢
      rw [rtakeWhile_concat_pos _ _ _ hp, ih fun x hx => h x (mem_append_left _ hx)]
    | false =>
      rw [rtakeWhile_concat_neg _ _ _ (by simp [hp]), rtakeWhile_concat_neg _ _ _ (by simp [hp])]

/-- What is then left in front. -/
theorem rdropWhile_append_of_notMem {a b : List α} (h : ∀ x ∈ (a ++ b).rtakeWhile p, x ∉ a) :
    (a ++ b).rdropWhile p = a ++ b.rdropWhile p := by
  have hwhole : (a ++ b).rdropWhile p ++ b.rtakeWhile p =
      a ++ b.rdropWhile p ++ b.rtakeWhile p := by
    rw [append_assoc, rdropWhile_append_rtakeWhile, ← rtakeWhile_append_of_notMem h,
      rdropWhile_append_rtakeWhile]
  exact append_cancel_right hwhole

end Ceph.SortedList
