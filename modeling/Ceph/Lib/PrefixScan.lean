import Mathlib.Data.Finmap
import Mathlib.Data.Finset.Max

/-!
# Looking through a map in the order of its keys

The first key after a position, and the keys that are strings with a common beginning:
in the lexicographic order nothing else lies between them.
-/

namespace Ceph.PrefixScan

open List Finset

universe u v

/-! ## Strings with a common beginning -/

section Strings

variable {α : Type u} [LinearOrder α]

/-- A string comes after its beginnings. -/
theorem le_of_isPrefix {p q : List α} (h : p <+: q) : p ≤ q := by
  induction p generalizing q with
  | nil => exact not_lt.1 (not_lt_nil q)
  | cons a p ih =>
    cases q with
    | nil => exact absurd (prefix_nil.1 h) (cons_ne_nil _ _)
    | cons b q =>
      obtain ⟨rfl, hpq⟩ := cons_prefix_cons.1 h
      refine not_lt.1 fun hlt => ?_
      rcases cons_lt_cons_iff.1 hlt with hlt | ⟨-, hlt⟩
      · exact lt_irrefl _ hlt
      · exact hlt.not_ge (ih hpq)

/-- What comes after `p` and does not begin with it comes after all that does. -/
theorem lt_of_not_isPrefix {p q k : List α} (hq : p <+: q) (hle : p ≤ k) (hk : ¬ p <+: k) :
    q < k := by
  induction p generalizing q k with
  | nil =>
    have hnil : [] <+: k := nil_prefix
    exact absurd hnil hk
  | cons a p ih =>
    cases k with
    | nil => exact absurd hle (not_le.2 (nil_lt_cons a p))
    | cons c k =>
      cases q with
      | nil => exact absurd (prefix_nil.1 hq) (cons_ne_nil _ _)
      | cons b q =>
        obtain ⟨rfl, hpq⟩ := cons_prefix_cons.1 hq
        rw [cons_lt_cons_iff]
        rcases lt_trichotomy a c with hlt | rfl | hgt
        · exact .inl hlt
        · refine .inr ⟨rfl, ih hpq ?_ fun h => hk (cons_prefix_cons.2 ⟨rfl, h⟩)⟩
          by_contra hlt
          exact absurd hle (not_le.2 (cons_lt_cons_iff.2 (.inr ⟨rfl, not_le.1 hlt⟩)))
        · exact absurd hle (not_le.2 (cons_lt_cons_iff.2 (.inl hgt)))

end Strings

/-! ## The next key -/

section Next

variable {κ : Type u} {β : Type v} [LinearOrder κ] [DecidableEq κ] {m : Finmap fun _ : κ => β}
  {pos k : κ}

/-- The first key after `pos`, with its value. -/
def next (m : Finmap fun _ : κ => β) (pos : κ) : Option (κ × β) :=
  (m.keys.filter (pos < ·)).min.recTopCoe none fun k => (m.lookup k).map fun v => (k, v)

omit [LinearOrder κ] in
theorem mem_keys_iff : k ∈ m.keys ↔ ∃ v, m.lookup k = some v := by
  rw [Finmap.mem_keys, ← Finmap.lookup_isSome, Option.isSome_iff_exists]

theorem next_eq_none (h : next m pos = none) {v : β} (hk : m.lookup k = some v) : k ≤ pos := by
  by_contra hlt
  have hmem : k ∈ m.keys.filter (pos < ·) :=
    mem_filter.2 ⟨mem_keys_iff.2 ⟨v, hk⟩, not_le.1 hlt⟩
  obtain ⟨k', hmin⟩ := min_of_mem hmem
  obtain ⟨v', hv'⟩ := mem_keys_iff.1 (mem_filter.1 (mem_of_min hmin)).1
  unfold next at h
  rw [hmin] at h
  change (m.lookup k').map _ = none at h
  rw [hv'] at h
  cases h

theorem next_eq_some {v : β} (h : next m pos = some (k, v)) :
    m.lookup k = some v ∧ pos < k ∧ ∀ k' v', m.lookup k' = some v' → pos < k' → k ≤ k' := by
  unfold next at h
  cases hmin : (m.keys.filter (pos < ·)).min with
  | top =>
    rw [hmin] at h
    cases h
  | coe a =>
    rw [hmin] at h
    obtain ⟨v', hv', heq⟩ := Option.map_eq_some_iff.1 h
    cases heq
    refine ⟨hv', (mem_filter.1 (mem_of_min hmin)).2, fun k' w hw hlt => ?_⟩
    exact min_le_of_eq (mem_filter.2 ⟨mem_keys_iff.2 ⟨w, hw⟩, hlt⟩) hmin

end Next

end Ceph.PrefixScan
