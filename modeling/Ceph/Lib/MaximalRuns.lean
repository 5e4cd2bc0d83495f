import Mathlib.Order.Nat
import Mathlib.Tactic.Common

/-!
# Maximal runs

The maximal runs of the numbers below a bound that have a property, and a scan that finds them
one after the other.

* `Scan.runsOf` — a scan from 0 finds all of them in ascending order.
-/

namespace Ceph

variable {P : ℕ → Prop} {n : ℕ}

/-- The numbers from `s` up to `e` have the property, and the run cannot be extended below `n`. -/
structure MaximalRun (P : ℕ → Prop) (n s e : ℕ) : Prop where
  lt : s < e
  le : e ≤ n
  all : ∀ b, s ≤ b → b < e → P b
  left : s = 0 ∨ ¬ P (s - 1)
  right : e = n ∨ ¬ P e

/-- The list has the maximal runs, in ascending order. -/
structure RunsOf (P : ℕ → Prop) (n : ℕ) (runs : List (ℕ × ℕ)) : Prop where
  mem : ∀ s e, (s, e) ∈ runs ↔ MaximalRun P n s e
  ascending : runs.Pairwise fun r r' => r.2 < r'.1

/-- What is found from `pos` on: a number with the property, and the next one without it. -/
inductive Scan (P : ℕ → Prop) (n : ℕ) : ℕ → List (ℕ × ℕ) → Prop
  | done {pos : ℕ} : (∀ b, pos ≤ b → b < n → ¬ P b) → Scan P n pos []
  | run {pos s e : ℕ} {runs : List (ℕ × ℕ)} : pos ≤ s → (∀ b, pos ≤ b → b < s → ¬ P b) → s < e →
      e ≤ n → (∀ b, s ≤ b → b < e → P b) → (e = n ∨ ¬ P e) → Scan P n e runs →
      Scan P n pos ((s, e) :: runs)

namespace MaximalRun

variable {s e s' e' : ℕ}

/-- Two maximal runs that begin at the same number are one. -/
theorem unique (h : MaximalRun P n s e) (h' : MaximalRun P n s e') : e = e' := by
  have hle : ∀ {e e'}, MaximalRun P n s e → MaximalRun P n s e' → e ≤ e' := by
    intro e e' h h'
    by_contra hlt
    rcases h'.right with rfl | hnot
    · exact hlt h.le
    · exact hnot (h.all e' h'.lt.le (by omega))
  exact le_antisymm (hle h h') (hle h' h)

/-- A maximal run does not begin inside another one. -/
theorem not_inside (h : MaximalRun P n s e) (h' : MaximalRun P n s' e') (hlt : s < s') :
    e ≤ s' := by
  by_contra hin
  rcases h'.left with rfl | hnot
  · omega
  · exact hnot (h.all (s' - 1) (by omega) (by omega))

end MaximalRun

variable {runs : List (ℕ × ℕ)}

/-- A scan finds the runs that begin at `pos` or later. -/
theorem Scan.spec {pos : ℕ} (h : Scan P n pos runs) (hpos : pos = 0 ∨ n ≤ pos ∨ ¬ P pos) :
    (∀ s e, (s, e) ∈ runs ↔ MaximalRun P n s e ∧ pos ≤ s) ∧
      runs.Pairwise fun r r' => r.2 < r'.1 := by
  induction h with
  | done hnone =>
    refine ⟨fun s e => ⟨fun hmem => absurd hmem List.not_mem_nil, fun hrun => ?_⟩,
      List.Pairwise.nil⟩
    have hle := hrun.1.le
    have hlt := hrun.1.lt
    exact absurd (hrun.1.all s le_rfl hlt) (hnone s hrun.2 (by omega))
  | @run pos s e runs hle hskip hlt hen hall hright hscan ih =>
    obtain ⟨hmem, hasc⟩ := ih (hright.elim (fun heq => .inr (.inl heq.ge)) fun hn => .inr (.inr hn))
    have hleft : s = 0 ∨ ¬ P (s - 1) := by
      rcases Nat.lt_or_ge pos s with hps | hps
      · exact .inr (hskip (s - 1) (by omega) (by omega))
      · obtain rfl : s = pos := by omega
        rcases hpos with hzero | hbeyond | hnot
        · exact .inl hzero
        · omega
        · exact absurd (hall s le_rfl hlt) hnot
    have hfirst : MaximalRun P n s e := ⟨hlt, hen, hall, hleft, hright⟩
    refine ⟨fun s' e' => ⟨fun hin => ?_, fun ⟨hrun, hge⟩ => ?_⟩, List.pairwise_cons.2 ⟨?_, hasc⟩⟩
    · rcases List.mem_cons.1 hin with heq | hin
      · cases heq
        exact ⟨hfirst, hle⟩
      · obtain ⟨hrun, hge⟩ := (hmem s' e').1 hin
        exact ⟨hrun, by omega⟩
    · -- the run begins at `s` or behind the first one
      have hs : s ≤ s' := by
        by_contra hs
        exact hskip s' hge (by omega) (hrun.all s' le_rfl hrun.lt)
      rcases Nat.eq_or_lt_of_le hs with rfl | hs
      · rw [hfirst.unique hrun]
        exact List.mem_cons_self ..
      · exact List.mem_cons_of_mem _ ((hmem s' e').2 ⟨hrun, hfirst.not_inside hrun hs⟩)
    · rintro ⟨s', e'⟩ hin
      obtain ⟨hrun, hge⟩ := (hmem s' e').1 hin
      refine lt_of_le_of_ne hge ?_
      rintro rfl
      have hle' := hrun.le
      have hlt' := hrun.lt
      rcases hright with heq | hnot
      · omega
      · exact hnot (hrun.all e le_rfl hlt')

theorem Scan.runsOf (h : Scan P n 0 runs) : RunsOf P n runs := by
  obtain ⟨hmem, hasc⟩ := h.spec (.inl rfl)
  exact ⟨fun s e => (hmem s e).trans (and_iff_left (Nat.zero_le s)), hasc⟩

end Ceph
