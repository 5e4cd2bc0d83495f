import Mathlib.Data.List.Intervals
import Ceph.Lib.IntervalMap

/-!
# Interval sets as finite sets

The members of an interval set as a `Finset` (`IntervalSet.bytes`), and what the operations
on its maximal runs do to it: adding a new interval and learning the run it became part of,
taking an interval out of a run, meeting and subtracting whole sets.  The sum of the lengths
is the number of members (`card_bytes`).
-/

namespace Ceph.IntervalSet

open IntervalMap Finset
open List hiding Ico

variable {s s' t : IntervalSet} {e : Extent ℕ} {off len x : ℕ}

/-! ## Members -/

/-- The members. -/
def bytes : IntervalSet → Finset ℕ
  | [] => ∅
  | e :: s => Ico e.off e.stop ∪ bytes s

/-- The sum of the lengths. -/
def total (s : IntervalSet) : ℕ := (s.map Extent.len).sum

@[simp] theorem bytes_nil : bytes [] = ∅ := rfl

theorem bytes_cons : bytes (e :: s) = Ico e.off e.stop ∪ bytes s := rfl

theorem mem_bytes : x ∈ bytes s ↔ Covered s x := by
  induction s with
  | nil => simp [Covered]
  | cons e s ih => simp [bytes_cons, ih, Covered, Extent.Covers]

theorem Ico_subset_bytes (he : e ∈ s) : Ico e.off e.stop ⊆ bytes s := by
  intro x hx
  exact mem_bytes.2 ⟨e, he, mem_Ico.1 hx⟩

/-- The members of the later runs lie beyond the first run. -/
theorem stop_lt_of_mem_bytes (h : WF lengths 1 (e :: s)) (hx : x ∈ bytes s) : e.stop < x := by
  obtain ⟨e', he', hc⟩ := mem_bytes.1 hx
  have hap := h.head e' he'
  have hle := hc.1
  omega

theorem off_le_of_mem_bytes (h : WF lengths 1 (e :: s)) (hx : x ∈ bytes (e :: s)) : e.off ≤ x := by
  rcases mem_union.1 hx with hx | hx
  · exact (mem_Ico.1 hx).1
  · exact (Nat.le_add_right _ _).trans (stop_lt_of_mem_bytes h hx).le

theorem card_bytes (h : WF lengths 1 s) : (bytes s).card = total s := by
  induction s with
  | nil => rfl
  | cons e s ih =>
    have hdisj : Disjoint (Ico e.off e.stop) (bytes s) := by
      rw [Finset.disjoint_left]
      intro x hx hx'
      have hlt := stop_lt_of_mem_bytes h hx'
      have hlt' := (mem_Ico.1 hx).2
      omega
    rw [bytes_cons, card_union_of_disjoint hdisj, ih h.tail, Nat.card_Ico]
    simp [total, Extent.stop]

/-! ## Runs -/

/-- The runs that end after `x`. -/
def lowerBound (x : ℕ) (s : IntervalSet) : IntervalSet := s.dropWhile fun e => e.stop ≤ x

/-- The runs that end at `x` or before it. -/
def upTo (x : ℕ) (s : IntervalSet) : IntervalSet := s.takeWhile fun e => e.stop ≤ x

/-- The run that `x` is in. -/
def contains (x : ℕ) (s : IntervalSet) : Option (Extent ℕ) :=
  (lowerBound x s).head?.filter fun e => e.off ≤ x

theorem mem_of_mem_lowerBound (h : e ∈ lowerBound x s) : e ∈ s :=
  (dropWhile_sublist _).subset h

theorem mem_of_mem_upTo (h : e ∈ upTo x s) : e ∈ s :=
  (takeWhile_sublist _).subset h

theorem contains_eq_some (h : contains x s = some e) : e ∈ s ∧ e.Covers x := by
  obtain ⟨hhead, hoff⟩ := Option.filter_eq_some_iff.1 h
  have hend := List.head?_dropWhile_not (fun e : Extent ℕ => decide (e.stop ≤ x)) s
  rw [show s.dropWhile (fun e => decide (e.stop ≤ x)) = lowerBound x s from rfl, hhead] at hend
  refine ⟨mem_of_mem_lowerBound (mem_of_head? hhead), by simpa using hoff, ?_⟩
  simpa using hend

section

variable (h : WF lengths 1 s)

include h

theorem contains_isSome (hx : x ∈ bytes s) : ∃ e, contains x s = some e := by
  induction s with
  | nil => simp at hx
  | cons e s ih =>
    by_cases hstop : e.stop ≤ x
    · have htail : x ∈ bytes s := by
        rw [bytes_cons, mem_union, mem_Ico] at hx
        exact hx.resolve_left (by omega)
      obtain ⟨e', he'⟩ := ih h.tail htail
      refine ⟨e', ?_⟩
      rwa [contains, lowerBound, dropWhile_cons_of_pos (by simpa using hstop)]
    · have hoff : e.off ≤ x := by
        rw [bytes_cons, mem_union, mem_Ico] at hx
        rcases hx with hx | hx
        · exact hx.1
        · have := stop_lt_of_mem_bytes h hx
          omega
      rw [contains, lowerBound, dropWhile_cons_of_neg (by simpa using hstop)]
      simp [hoff]

/-- A run reaches as far as the members do. -/
theorem le_stop_of_covers (he : e ∈ s) (hoff : e.Covers off)
    (hsub : Ico off (off + len) ⊆ bytes s) : off + len ≤ e.stop := by
  by_contra hlt
  have hmem : e.stop ∈ Ico off (off + len) := by
    have := hoff.2
    rw [mem_Ico]
    omega
  exact h.not_covered_after he (mem_bytes.1 (hsub hmem))

/-! ## Adding an interval -/

/-- Add an interval that does not meet the set; the run it is then part of. -/
def insertRun (off len : ℕ) (s : IntervalSet) : Option (IntervalSet × Extent ℕ) := do
  let s ← insertNew off len s
  let e ← contains off s
  return (s, e)

theorem insertNew_bytes (hlen : 0 < len) (hdisj : Disjoint (Ico off (off + len)) (bytes s)) :
    ∃ s', insertNew off len s = some s' ∧ WF lengths 1 s' ∧
      bytes s' = Ico off (off + len) ∪ bytes s := by
  obtain ⟨s', hins, hwf, hcov⟩ := insertNew_spec h off hlen fun x h1 h2 hx =>
    disjoint_left.1 hdisj (mem_Ico.2 ⟨h1, h2⟩) (mem_bytes.2 hx)
  refine ⟨s', hins, hwf, ?_⟩
  ext x
  rw [mem_bytes, hcov x, mem_union, mem_Ico, mem_bytes]

theorem insertRun_bytes (hlen : 0 < len) (hdisj : Disjoint (Ico off (off + len)) (bytes s)) :
    ∃ s' e, insertRun off len s = some (s', e) ∧ WF lengths 1 s' ∧
      bytes s' = Ico off (off + len) ∪ bytes s ∧ e ∈ s' ∧ len ≤ e.len := by
  obtain ⟨s', hins, hwf, hbytes⟩ := insertNew_bytes h hlen hdisj
  have hsub : Ico off (off + len) ⊆ bytes s' := hbytes ▸ subset_union_left
  obtain ⟨e, he⟩ := contains_isSome hwf (hsub (mem_Ico.2 ⟨le_rfl, by omega⟩))
  obtain ⟨hmem, hcov⟩ := contains_eq_some he
  refine ⟨s', e, ?_, hwf, hbytes, hmem, ?_⟩
  · simp only [insertRun, hins, he, Option.bind_eq_bind, Option.bind_some, Option.pure_def]
  · have hle := le_stop_of_covers hwf hmem hcov hsub
    have hoff := hcov.1
    rw [Extent.stop] at hle
    omega

/-! ## Taking an interval out -/

/-- Take an interval out of the run it is in. -/
def eraseRun (off len : ℕ) (s : IntervalSet) : Option IntervalSet := do
  let e ← (lowerBound off s).head?
  assert (e.off ≤ off ∧ off + len ≤ e.stop)
  return erase lengths off len s

theorem bytes_erase (off len : ℕ) :
    bytes (erase lengths off len s) = bytes s \ Ico off (off + len) := by
  ext x
  have hget := get_erase lengths_lawful (fun e he => (h.sized e he).2) off len x
  rw [mem_sdiff, mem_Ico, mem_bytes, mem_bytes,
    ← get_isSome_iff (fun _ _ => ()), hget, ← get_isSome_iff (fun _ _ => ()) s]
  by_cases hin : off ≤ x ∧ x < off + len
  · simp [hin]
  · simp [hin]

theorem eraseRun_bytes (hlen : 0 < len) (hsub : Ico off (off + len) ⊆ bytes s) :
    ∃ s', eraseRun off len s = some s' ∧ WF lengths 1 s' ∧
      bytes s' = bytes s \ Ico off (off + len) := by
  obtain ⟨e, he⟩ := contains_isSome h (hsub (mem_Ico.2 ⟨le_rfl, by omega⟩))
  obtain ⟨hmem, hcov⟩ := contains_eq_some he
  have hle := le_stop_of_covers h hmem hcov hsub
  refine ⟨_, ?_, h.erase lengths_lawful le_rfl off len, bytes_erase h off len⟩
  rw [eraseRun, (Option.filter_eq_some_iff.1 he).1]
  exact assert_bind ⟨hcov.1, hle⟩ _

/-- Take the intervals of `t` out. -/
def subtract (s t : IntervalSet) : Option IntervalSet :=
  t.foldlM (fun s e => eraseRun e.off e.len s) s

theorem subtract_bytes (ht : WF lengths 1 t) (hsub : bytes t ⊆ bytes s) :
    ∃ s', subtract s t = some s' ∧ WF lengths 1 s' ∧ bytes s' = bytes s \ bytes t := by
  induction t generalizing s with
  | nil => exact ⟨s, rfl, h, by simp⟩
  | cons e t ih =>
    have hfirst : Ico e.off (e.off + e.len) ⊆ bytes s :=
      subset_union_left.trans hsub
    obtain ⟨s₁, herase, hwf₁, hbytes₁⟩ := eraseRun_bytes h (ht.sized e (by simp)).1 hfirst
    have hrest : bytes t ⊆ bytes s₁ := by
      intro x hx
      have hlt := stop_lt_of_mem_bytes ht hx
      rw [hbytes₁, mem_sdiff, mem_Ico]
      exact ⟨hsub (mem_union_right _ hx), fun hin => by
        rw [Extent.stop] at hlt
        omega⟩
    obtain ⟨s', hsubtract, hwf', hbytes'⟩ := ih hwf₁ ht.tail hrest
    refine ⟨s', ?_, hwf', ?_⟩
    · rwa [subtract, foldlM_cons, herase]
    · rw [hbytes', hbytes₁, sdiff_sdiff]
      rfl

end

/-! ## The common members -/

/-- Both sets are walked at once, the run that ends first is passed. -/
def intersectionLoop : ℕ → IntervalSet → IntervalSet → IntervalSet → Option IntervalSet
  | _, [], _, ret => some ret
  | _, _ :: _, [], ret => some ret
  | 0, _ :: _, _ :: _, _ => none
  | fuel + 1, a :: s, b :: t, ret =>
    if a.stop ≤ b.off then intersectionLoop fuel s (b :: t) ret
    else if b.stop ≤ a.off then intersectionLoop fuel (a :: s) t ret
    else do
      let start := max a.off b.off
      let en := min a.stop b.stop
      let ret ← insertNew start (en - start) ret
      if b.stop < a.stop then intersectionLoop fuel (a :: s) t ret
      else intersectionLoop fuel s (b :: t) ret

/-- The common members of two sets. -/
def intersectionOf (s t : IntervalSet) : Option IntervalSet :=
  intersectionLoop (s.length + t.length) s t []

/-- A run that ends before the other set begins shares nothing with it. -/
theorem bytes_inter_of_pass {a b : Extent ℕ} (ht : WF lengths 1 (b :: t))
    (hpass : a.stop ≤ b.off) : bytes (a :: s) ∩ bytes (b :: t) = bytes s ∩ bytes (b :: t) := by
  rw [bytes_cons, union_inter_distrib_right, union_eq_right]
  intro x hx
  obtain ⟨hxa, hxb⟩ := mem_inter.1 hx
  have := (mem_Ico.1 hxa).2
  have := off_le_of_mem_bytes ht hxb
  omega

theorem intersectionLoop_bytes {fuel : ℕ} {ret : IntervalSet} (hfuel : s.length + t.length ≤ fuel)
    (h : WF lengths 1 s) (ht : WF lengths 1 t) (hret : WF lengths 1 ret)
    (hdisj : Disjoint (bytes ret) (bytes s ∩ bytes t)) :
    ∃ r, intersectionLoop fuel s t ret = some r ∧ WF lengths 1 r ∧
      bytes r = bytes ret ∪ bytes s ∩ bytes t := by
  induction fuel generalizing s t ret with
  | zero =>
    obtain rfl : s = [] := length_eq_zero_iff.1 (by omega)
    exact ⟨ret, by rw [intersectionLoop], hret, by simp⟩
  | succ fuel ih =>
    match s, t with
    | [], t => exact ⟨ret, by rw [intersectionLoop], hret, by simp⟩
    | a :: s, [] => exact ⟨ret, by rw [intersectionLoop], hret, by simp⟩
    | a :: s, b :: t =>
      simp only [length_cons] at hfuel
      rw [intersectionLoop]
      by_cases hpassA : a.stop ≤ b.off
      · rw [if_pos hpassA]
        rw [bytes_inter_of_pass ht hpassA] at hdisj ⊢
        exact ih (by simp only [length_cons]; omega) h.tail ht hret hdisj
      rw [if_neg hpassA]
      by_cases hpassB : b.stop ≤ a.off
      · rw [if_pos hpassB]
        rw [inter_comm (bytes (a :: s)), bytes_inter_of_pass h hpassB,
          inter_comm (bytes t)] at hdisj ⊢
        exact ih (by simp only [length_cons]; omega) h ht.tail hret hdisj
      rw [if_neg hpassB]
      -- the two runs meet: what they share is added before one of them is passed
      have hapos := (h.sized a (by simp)).1
      have hbpos := (ht.sized b (by simp)).1
      have hastop := a.stop_eq
      have hbstop := b.stop_eq
      have hshare : Ico (max a.off b.off)
            (max a.off b.off + (min a.stop b.stop - max a.off b.off)) =
          Ico a.off a.stop ∩ Ico b.off b.stop := by
        rw [Ico_inter_Ico]
        congr 1
        omega
      have hsub : Ico a.off a.stop ∩ Ico b.off b.stop ⊆ bytes (a :: s) ∩ bytes (b :: t) :=
        inter_subset_inter subset_union_left subset_union_left
      have hnew : Disjoint (Ico (max a.off b.off)
          (max a.off b.off + (min a.stop b.stop - max a.off b.off))) (bytes ret) :=
        hshare ▸ (disjoint_of_subset_right hsub hdisj).symm
      obtain ⟨ret', hins, hret', hbytes'⟩ := insertNew_bytes hret (by omega) hnew
      rw [hshare] at hbytes'
      simp only [hins, Option.bind_eq_bind, Option.bind_some]
      -- whichever run is passed, the rest lies beyond what was added
      have hrest : ∀ rest, bytes (a :: s) ∩ bytes (b :: t) =
            Ico a.off a.stop ∩ Ico b.off b.stop ∪ rest →
          Disjoint (Ico a.off a.stop ∩ Ico b.off b.stop) rest → Disjoint (bytes ret') rest ∧
            bytes ret ∪ bytes (a :: s) ∩ bytes (b :: t) = bytes ret' ∪ rest := by
        intro rest hinter hapart
        rw [hbytes', disjoint_union_left, hinter]
        refine ⟨⟨hapart, disjoint_of_subset_right ?_ hdisj⟩, ?_⟩
        · exact hinter ▸ subset_union_right
        · rw [union_comm (Ico a.off a.stop ∩ _) (bytes ret), union_assoc]
      by_cases hlast : b.stop < a.stop
      · obtain ⟨hdisj', heq⟩ := hrest (bytes (a :: s) ∩ bytes t) (by
          ext x
          have := @stop_lt_of_mem_bytes s a x h
          simp only [bytes_cons, mem_inter, mem_union, mem_Ico]
          grind) (by
          rw [Finset.disjoint_left]
          intro x hx hx'
          have := stop_lt_of_mem_bytes ht (Finset.mem_inter.1 hx').2
          have := (mem_Ico.1 (mem_inter.1 hx).2).2
          omega)
        rw [if_pos hlast, heq]
        exact ih (by simp only [length_cons]; omega) h ht.tail hret' hdisj'
      · obtain ⟨hdisj', heq⟩ := hrest (bytes s ∩ bytes (b :: t)) (by
          ext x
          have := @stop_lt_of_mem_bytes t b x ht
          simp only [bytes_cons, mem_inter, mem_union, mem_Ico]
          grind) (by
          rw [Finset.disjoint_left]
          intro x hx hx'
          have := stop_lt_of_mem_bytes h (Finset.mem_inter.1 hx').1
          have := (mem_Ico.1 (mem_inter.1 hx).1).2
          omega)
        rw [if_neg hlast, heq]
        exact ih (by simp only [length_cons]; omega) h.tail ht hret' hdisj'

theorem intersectionOf_bytes (h : WF lengths 1 s) (ht : WF lengths 1 t) :
    ∃ r, intersectionOf s t = some r ∧ WF lengths 1 r ∧ bytes r = bytes s ∩ bytes t := by
  obtain ⟨r, hr, hwf, hbytes⟩ := intersectionLoop_bytes le_rfl h ht (WF.nil 1) (by simp)
  exact ⟨r, hr, hwf, by simpa using hbytes⟩

/-! ## Where runs end -/

/-- A run that is left ends where one ended before, or where the hole begins. -/
theorem forall_stop_erase {P : ℕ → Prop} (h : ∀ e ∈ s, P e.stop) (hoff : P off) :
    ∀ e ∈ erase lengths off len s, P e.stop := by
  intro p hp
  rcases mem_erase hp with hp | ⟨e, he, hout, hpe⟩
  · exact h p hp
  rcases mem_cut_of_not hout hpe with ⟨hlt, rfl⟩ | ⟨hlt, rfl⟩
  · rwa [Extent.stop, Nat.add_sub_of_le hlt.le]
  · rw [Extent.stop, Nat.add_sub_of_le hlt.le]
    exact h e he

/-- Taking a whole run out leaves the other runs. -/
theorem mem_of_mem_erase (h : WF lengths 1 s) (he : e ∈ s) {p : Extent ℕ}
    (hp : p ∈ erase lengths e.off e.len s) : p ∈ s := by
  rcases mem_erase hp with hp | ⟨q, hq, hmeet, hpq⟩
  · exact hp
  -- no other run meets this one, and nothing of it is left
  obtain rfl : q = e := by
    by_contra hne
    have hap := h.apart_of_ne hq he hne
    have hstop := e.stop_eq
    omega
  rw [cut, if_neg hmeet] at hpq
  simp [leftOf, rightOf, Extent.stop] at hpq

theorem forall_stop_place {P : ℕ → Prop} (h : ∀ p ∈ s, P p.stop) (he : P e.stop) :
    ∀ p ∈ place lengths e s, P p.stop :=
  forall_place (fun _ _ hj _ hr => hj.stop.symm ▸ hr) he h

/-- An interval that is added meets no run. -/
theorem insertNew_eq_some (hins : insertNew off len s = some s') : 0 < len ∧
    (∀ e ∈ s, e.stop ≤ off ∨ off + len ≤ e.off) ∧ s' = place lengths ⟨off, len, len⟩ s := by
  rw [insertNew] at hins
  split at hins
  next hroom =>
    have hlen := (insert_eq_some hins).1
    rw [unionInsert, IntervalMap.insert, if_pos ⟨hlen, rfl⟩, IntervalMap.erase, if_neg hlen.ne',
      flatMap_cut_of_forall hroom] at hins
    exact ⟨hlen, hroom, (Option.some.inj hins).symm⟩
  next => cases hins

/-- The runs end where one of them or the interval does. -/
theorem of_insertNew (h : WF lengths 1 s) (hins : insertNew off len s = some s') : WF lengths 1 s' ∧
      ∀ {P : ℕ → Prop}, (∀ e ∈ s, P e.stop) → P (off + len) → ∀ e ∈ s', P e.stop := by
  obtain ⟨hlen, hroom, rfl⟩ := insertNew_eq_some hins
  exact ⟨WF.place lengths_lawful (.inr ⟨rfl, fun _ _ => rfl⟩) ⟨hlen, rfl⟩ h hroom,
    fun hs hnew => forall_stop_place hs hnew⟩

end Ceph.IntervalSet
