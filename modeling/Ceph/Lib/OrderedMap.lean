import Mathlib.Data.List.Sort
import Mathlib.Data.List.Perm.Basic

/-!
# Maps as sorted lists

A map as the list of its entries in the order of the keys, which is the order of an
iteration over it.

* `OrderedMap.mem_update` — an update changes one entry.
* `OrderedMap.perm_flatMap_update` — what it adds to a list gathered from all entries.
-/

namespace Ceph

open List

/-- The entries of a map; the keys ascend. -/
abbrev OrderedMap (κ V : Type*) := List (κ × V)

namespace OrderedMap

variable {κ V β : Type*} [LinearOrder κ]

/-- The keys ascend. -/
def Sorted (m : OrderedMap κ V) : Prop := m.Pairwise fun p q => p.1 < q.1

/-- The entry of `k` becomes `f` of what it was. -/
def update (k : κ) (f : Option V → V) : OrderedMap κ V → OrderedMap κ V
  | [] => [(k, f none)]
  | p :: m =>
    if k < p.1 then (k, f none) :: p :: m
    else if k = p.1 then (k, f (some p.2)) :: m
    else p :: update k f m

variable {m : OrderedMap κ V}

theorem key_mem_update {k : κ} {f : Option V → V} {p : κ × V} (hp : p ∈ update k f m) :
    p.1 = k ∨ p ∈ m := by
  induction m with
  | nil => exact .inl (by rw [mem_singleton.1 hp])
  | cons q m ih =>
    rw [update] at hp
    split_ifs at hp with hlt heq
    · rcases mem_cons.1 hp with rfl | hp
      · exact .inl rfl
      · exact .inr hp
    · rcases mem_cons.1 hp with rfl | hp
      · exact .inl rfl
      · exact .inr (mem_cons_of_mem _ hp)
    · rcases mem_cons.1 hp with rfl | hp
      · exact .inr mem_cons_self
      · exact (ih hp).imp_right (mem_cons_of_mem _)

theorem Sorted.update (hm : Sorted m) (k : κ) (f : Option V → V) : Sorted (update k f m) := by
  induction m with
  | nil => exact pairwise_singleton _ _
  | cons q m ih =>
    obtain ⟨hq, htail⟩ := pairwise_cons.1 hm
    rw [OrderedMap.update]
    split_ifs with hlt heq
    · refine pairwise_cons.2 ⟨fun p hp => ?_, hm⟩
      rcases mem_cons.1 hp with rfl | hp
      · exact hlt
      · exact hlt.trans (hq p hp)
    · subst heq
      exact pairwise_cons.2 ⟨hq, htail⟩
    · refine pairwise_cons.2 ⟨fun p hp => ?_, ih htail⟩
      rcases key_mem_update hp with rfl | hp
      · exact lt_of_le_of_ne (not_lt.1 hlt) (Ne.symm heq)
      · exact hq p hp

/-- A key has one value. -/
theorem Sorted.unique (hm : Sorted m) {k : κ} {v v' : V} (hv : (k, v) ∈ m) (hv' : (k, v') ∈ m) :
    v = v' := by
  induction m with
  | nil => exact absurd hv not_mem_nil
  | cons q m ih =>
    obtain ⟨hq, htail⟩ := pairwise_cons.1 hm
    rcases mem_cons.1 hv with rfl | hm₁
    · rcases mem_cons.1 hv' with heq | hm₂
      · exact (Prod.mk.inj heq).2.symm
      · exact absurd (hq _ hm₂) (lt_irrefl _)
    · rcases mem_cons.1 hv' with rfl | hm₂
      · exact absurd (hq _ hm₁) (lt_irrefl _)
      · exact ih htail hm₁ hm₂

/-- An update changes one entry, or adds it. -/
theorem mem_update (hm : Sorted m) (k : κ) (f : Option V → V) :
    (∃ v, (k, v) ∈ m ∧ ∀ p, p ∈ update k f m ↔ p = (k, f (some v)) ∨ p ∈ m ∧ p.1 ≠ k) ∨
      (∀ v, (k, v) ∉ m) ∧ ∀ p, p ∈ update k f m ↔ p = (k, f none) ∨ p ∈ m := by
  induction m with
  | nil => exact .inr ⟨fun v => not_mem_nil, fun p => by simp [update]⟩
  | cons q m ih =>
    obtain ⟨hq, htail⟩ := pairwise_cons.1 hm
    rw [update]
    split_ifs with hlt heq
    · refine .inr ⟨fun v hv => ?_, fun p => mem_cons⟩
      rcases mem_cons.1 hv with rfl | hv
      · exact lt_irrefl _ hlt
      · exact lt_asymm hlt (hq _ hv)
    · subst heq
      refine .inl ⟨q.2, mem_cons_self .., fun p => ?_⟩
      grind
    · have hqk : q.1 ≠ k := Ne.symm heq
      rcases ih htail with ⟨v, hv, hmem⟩ | ⟨hnone, hmem⟩
      · refine .inl ⟨v, mem_cons_of_mem _ hv, fun p => ?_⟩
        rw [mem_cons, hmem p]
        grind
      · refine .inr ⟨fun v hv => ?_, fun p => ?_⟩
        · rcases mem_cons.1 hv with rfl | hv
          · exact hqk rfl
          · exact hnone v hv
        · rw [mem_cons, hmem p]
          grind

/-- If the changed entry contributes `new` more than before, so does the map. -/
theorem perm_flatMap_update {k : κ} {f : Option V → V} {g : V → List β} {new : List β}
    (hnone : (g (f none)).Perm new) (hsome : ∀ v, (k, v) ∈ m → (g (f (some v))).Perm (g v ++ new)) :
    ((update k f m).flatMap fun p => g p.2).Perm ((m.flatMap fun p => g p.2) ++ new) := by
  induction m with
  | nil => simpa [update] using hnone
  | cons q m ih =>
    rw [update]
    split_ifs with hlt heq
    · exact (hnone.append_right _).trans perm_append_comm
    · subst heq
      rw [flatMap_cons, flatMap_cons]
      refine ((hsome q.2 mem_cons_self).append_right _).trans ?_
      rw [append_assoc, append_assoc]
      exact perm_append_comm.append_left _
    · rw [flatMap_cons, flatMap_cons, append_assoc]
      exact (ih fun v hv => hsome v (mem_cons_of_mem _ hv)).append_left _

end OrderedMap

end Ceph
