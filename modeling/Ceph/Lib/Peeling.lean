import Mathlib.Tactic

/-!
# Peeling erasures group by group

A group is a set of symbols with a budget: it restores all its symbols as soon as
no more than that many of them are erased.  Peeling walks a list of groups once
and lets each of them restore what it can.
-/

namespace Ceph.Peeling

open Finset

variable {α : Type*} [DecidableEq α]

/-- One group restores its symbols if its budget allows. -/
def restore (erased : Finset α) (group : Finset α × ℕ) : Finset α :=
  if (group.1 ∩ erased).card ≤ group.2 then erased \ group.1 else erased

variable (groups : List (Finset α × ℕ))

/-- All groups in turn. -/
def peel (erased : Finset α) : Finset α :=
  groups.foldl restore erased

variable {erased : Finset α} (group : Finset α × ℕ)

theorem restore_of_le (h : (group.1 ∩ erased).card ≤ group.2) :
    restore erased group = erased \ group.1 :=
  if_pos h

theorem restore_of_lt (h : group.2 < (group.1 ∩ erased).card) : restore erased group = erased :=
  if_neg (by omega)

section

variable (erased : Finset α)

@[simp] theorem peel_nil : peel [] erased = erased := rfl

@[simp] theorem peel_cons :
    peel (group :: groups) erased = peel groups (restore erased group) := rfl

theorem restore_subset (group : Finset α × ℕ) : restore erased group ⊆ erased := by
  rw [restore]
  by_cases h : (group.1 ∩ erased).card ≤ group.2
  · rw [if_pos h]
    exact sdiff_subset
  · rw [if_neg h]

theorem peel_subset : peel groups erased ⊆ erased := by
  induction groups generalizing erased with
  | nil => exact Finset.Subset.refl _
  | cons group groups ih => exact (ih _).trans (restore_subset erased group)

end

/-- A group of `k + m` symbols with `k` of them at hand is within a budget of `m`. -/
theorem card_inter_le_of_subset {group present : Finset α} {k m : ℕ} (hcard : group.card = k + m)
    (hpre : present ⊆ group) (hk : k ≤ present.card) (hdisj : Disjoint present erased) :
    (group ∩ erased).card ≤ m := by
  have hsub : group ∩ erased ⊆ group \ present := by
    intro x hx
    obtain ⟨hg, he⟩ := mem_inter.1 hx
    exact mem_sdiff.2 ⟨hg, fun hp => disjoint_left.1 hdisj hp he⟩
  have := card_le_card hsub
  rw [card_sdiff_of_subset hpre] at this
  omega

end Ceph.Peeling
