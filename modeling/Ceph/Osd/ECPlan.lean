import Ceph.Osd.ECTransaction

/-!
# What the write plan says

`get_write_plan` cuts the object at the lowest truncation (`cutSize`) and then
walks over the runs of the raw write set.  Below the cut it writes every stripe
that an update touches, and reads those that are not overwritten as a whole; from
the cut on it writes everything up to the end of the object (`getWritePlan_spec`).
-/

namespace Ceph.Osd

open IntervalMap StripeInfo List Option IntervalSet
open StripeInfo renaming logicalToPrevStripeOffset → prevStripe,
  logicalToNextStripeOffset → nextStripe, LogicalOffsetIsStripeAligned → StripeAligned,
  logicalToPrevChunkOffset → prevChunk

variable {sinfo : StripeInfo} {V : Type*}

section

variable (sinfo : StripeInfo)

/-- The size left by the lowest truncation, in whole stripes. -/
def cutSize (truncate : Option (ℕ × ℕ)) (size : ℕ) : ℕ :=
  match truncate with
  | none => size
  | some (first, _) => if first < size then sinfo.logicalToNextStripeOffset first else size

/-- `x` is in the stripe that the lowest truncation cuts in two. -/
def InCutStripe (truncate : Option (ℕ × ℕ)) (size x : ℕ) : Prop :=
  match truncate with
  | none => False
  | some (first, _) => first < size ∧ ¬ sinfo.LogicalOffsetIsStripeAligned first ∧
      sinfo.logicalToPrevStripeOffset x = sinfo.logicalToPrevStripeOffset first

/-- The stripe of `x` has a point in the map. -/
def Touched (m : IntervalMap V) (x : ℕ) : Prop :=
  ∃ y, Covered m y ∧ sinfo.logicalToPrevStripeOffset y = sinfo.logicalToPrevStripeOffset x

/-- A size in whole stripes that takes in the cut object, the updates and the last
truncation. -/
structure Encloses (sinfo : StripeInfo) (op : ObjectOperation) (size n : ℕ) : Prop where
  aligned : sinfo.LogicalOffsetIsStripeAligned n
  cut_le : cutSize sinfo op.truncate size ≤ n
  covered_lt : ∀ x, Covered op.bufferUpdates x → x < n
  truncate_le : ∀ first second, op.truncate = some (first, second) → second ≤ n

/-- The size of the object after the operation. -/
def IsFinalSize (op : ObjectOperation) (size n : ℕ) : Prop :=
  IsLeast {n | Encloses sinfo op size n} n

end

variable {size : ℕ}

theorem cutSize_aligned (h : StripeAligned sinfo size) (truncate : Option (ℕ × ℕ)) :
    StripeAligned sinfo (cutSize sinfo truncate size) := by
  cases truncate with
  | none => exact h
  | some p =>
    rw [cutSize]
    split
    · exact sinfo.next_aligned _
    · exact h

theorem cutSize_le (h : StripeAligned sinfo size) (truncate : Option (ℕ × ℕ)) :
    cutSize sinfo truncate size ≤ size := by
  cases truncate with
  | none => exact le_rfl
  | some p =>
    rw [cutSize]
    split
    next hlt => exact (next_le_iff h).2 hlt.le
    · exact le_rfl

variable {x : ℕ}

/-- The stripe cut in two is the last one that is kept. -/
theorem inCutStripe_iff {first second : ℕ} (hlt : first < size)
    (hal : ¬ StripeAligned sinfo first) :
    InCutStripe sinfo (some (first, second)) size x ↔
      prevStripe sinfo first ≤ x ∧ x < nextStripe sinfo first := by
  rw [next_eq_prev_add hal, ← prev_eq_prev_iff]
  exact ⟨fun h => h.2.2, fun h => ⟨hlt, hal, h⟩⟩

theorem not_inCutStripe_of_aligned {first second : ℕ} (hal : StripeAligned sinfo first) :
    ¬ InCutStripe sinfo (some (first, second)) size x :=
  fun h => h.2.1 hal

theorem not_inCutStripe_of_le {first second : ℕ} (hle : size ≤ first) :
    ¬ InCutStripe sinfo (some (first, second)) size x :=
  fun h => absurd h.1 (by omega)

variable {truncate : Option (ℕ × ℕ)}

theorem InCutStripe.lt_cutSize (h : InCutStripe sinfo truncate size x) :
    x < cutSize sinfo truncate size := by
  cases truncate with
  | none => exact absurd h id
  | some p =>
    obtain ⟨hlt, hal, -⟩ := id h
    rw [cutSize, if_pos hlt]
    exact ((inCutStripe_iff hlt hal).1 h).2

/-! ## Stripes and extents -/

section

variable {a b : ℕ}

/-- A point of a stripe that an extent meets lies in the extent, or the extent
begins or ends inside the stripe. -/
theorem mem_or_begins_or_ends (h1 : prevStripe sinfo a ≤ x) (h2 : x < nextStripe sinfo b) :
    (a ≤ x ∧ x < b) ∨ (¬ StripeAligned sinfo a ∧ prevStripe sinfo x = prevStripe sinfo a) ∨
      (¬ StripeAligned sinfo b ∧ prevStripe sinfo x = prevStripe sinfo b) := by
  by_cases hx1 : x < a
  · refine .inr (.inl ⟨fun hal => ?_, prev_eq_prev_iff.2 ⟨h1, ?_⟩⟩)
    · rw [prev_eq_self hal] at h1
      omega
    · exact hx1.trans (sinfo.lt_prev_add a)
  by_cases hx2 : x < b
  · exact .inl ⟨by omega, hx2⟩
  have hal : ¬ StripeAligned sinfo b := fun hal => by
    rw [next_eq_self hal] at h2
    omega
  rw [next_eq_prev_add hal] at h2
  exact .inr (.inr ⟨hal, prev_eq_prev_iff.2 ⟨(sinfo.prev_le b).trans (by omega), h2⟩⟩)

/-- The stripes an extent meets, as an interval. -/
theorem meets_iff (hab : a < b) : (prevStripe sinfo a ≤ x ∧ x < nextStripe sinfo b) ↔
      ∃ y, a ≤ y ∧ y < b ∧
        prevStripe sinfo y = prevStripe sinfo x := by
  constructor
  · rintro ⟨h1, h2⟩
    rcases mem_or_begins_or_ends h1 h2 with hx | ⟨-, hx⟩ | ⟨hal, hx⟩
    · exact ⟨x, hx.1, hx.2, rfl⟩
    · exact ⟨a, le_rfl, hab, hx.symm⟩
    · exact ⟨b - 1, by omega, by omega, (prev_pred hal).trans hx.symm⟩
  · rintro ⟨y, h1, h2, heq⟩
    obtain ⟨hxp, hxs⟩ := prev_eq_prev_iff.1 heq.symm
    constructor
    · exact ((le_prev_iff (sinfo.prev_aligned a)).2 ((sinfo.prev_le a).trans h1)).trans hxp
    · have hyb := (sinfo.prev_le y).trans_lt (h2.trans_le (sinfo.le_next b))
      exact hxs.trans_le (add_width_le (sinfo.prev_aligned y) (sinfo.next_aligned b) hyb)

end

theorem touched_iff {S : Splitter V} {gap : ℕ} {m : IntervalMap V} (h : WF S gap m) (x : ℕ) :
    Touched sinfo m x ↔ ∃ e ∈ m, prevStripe sinfo e.off ≤ x ∧ x < nextStripe sinfo e.stop := by
  constructor
  · rintro ⟨y, ⟨e, he, h1, h2⟩, heq⟩
    exact ⟨e, he, (meets_iff (h.off_lt_stop he)).2 ⟨y, h1, h2, heq⟩⟩
  · rintro ⟨e, he, hx⟩
    obtain ⟨y, h1, h2, heq⟩ := (meets_iff (h.off_lt_stop he)).1 hx
    exact ⟨y, ⟨e, he, h1, h2⟩, heq⟩

variable {e : Extent V}

/-- A map of maximal runs that holds whole stripes only has aligned extents. -/
theorem aligned_of_saturated {S : Splitter V} {m : IntervalMap V} (h : WF S 1 m)
    (hsat : ∀ x y, prevStripe sinfo x = prevStripe sinfo y →
      Covered m x → Covered m y) (he : e ∈ m) :
    StripeAligned sinfo e.off ∧ StripeAligned sinfo e.stop := by
  constructor
  · by_contra hal
    have hlt := prev_lt hal
    have hcov := hsat e.off (e.off - 1) (prev_pred hal).symm (h.covered_off he)
    exact h.not_covered_before he (by omega) hcov
  · by_contra hal
    have hlt := h.off_lt_stop he
    have hcov := hsat (e.stop - 1) e.stop (prev_pred hal) ⟨e, he, by omega, by omega⟩
    exact h.not_covered_after he hcov

/-! ## The loop of the plan -/

/-- What holds when the runs `pre` have been planned. -/
structure PlanInv (sinfo : StripeInfo) (truncate : Option (ℕ × ℕ)) (size : ℕ)
    (pre : ExtentSet) (plan : Planned) : Prop where
  aligned : sinfo.LogicalOffsetIsStripeAligned plan.projectedSize
  cut_le : cutSize sinfo truncate size ≤ plan.projectedSize
  next_le : ∀ e ∈ pre, sinfo.logicalToNextStripeOffset e.stop ≤ plan.projectedSize
  least : ∀ n, sinfo.LogicalOffsetIsStripeAligned n → cutSize sinfo truncate size ≤ n →
    (∀ e ∈ pre, e.stop ≤ n) → plan.projectedSize ≤ n
  willWrite_wf : WF lengths 1 plan.willWrite
  willWrite : ∀ x, Covered plan.willWrite x ↔ InCutStripe sinfo truncate size x ∨
    (x < cutSize sinfo truncate size ∧ ∃ e ∈ pre, sinfo.logicalToPrevStripeOffset e.off ≤ x ∧
      x < sinfo.logicalToNextStripeOffset e.stop) ∨
    (cutSize sinfo truncate size ≤ x ∧ x < plan.projectedSize)
  toRead_wf : WF lengths 1 plan.toRead
  reads_cut : ∀ x, InCutStripe sinfo truncate size x → Covered plan.toRead x
  reads_sub : ∀ x, Covered plan.toRead x → InCutStripe sinfo truncate size x ∨
    (x < plan.projectedSize ∧ ∃ e ∈ pre, sinfo.logicalToPrevStripeOffset e.off ≤ x ∧
      x < sinfo.logicalToNextStripeOffset e.stop)
  reads : ∀ e ∈ pre, ∀ x < cutSize sinfo truncate size,
    (¬ sinfo.LogicalOffsetIsStripeAligned e.off ∧
      sinfo.logicalToPrevStripeOffset x = sinfo.logicalToPrevStripeOffset e.off) ∨
    (¬ sinfo.LogicalOffsetIsStripeAligned e.stop ∧
      sinfo.logicalToPrevStripeOffset x = sinfo.logicalToPrevStripeOffset e.stop) →
    Covered plan.toRead x

theorem planTruncate_inv (truncate : Option (ℕ × ℕ)) (hsize : StripeAligned sinfo size) :
    ∃ plan, planTruncate sinfo truncate size = some plan ∧ PlanInv sinfo truncate size [] plan := by
  -- without a stripe cut in two there is nothing to read or write yet
  have hempty : (∀ x, ¬ InCutStripe sinfo truncate size x) →
      PlanInv sinfo truncate size [] ⟨cutSize sinfo truncate size, [], []⟩ := by
    intro hno
    exact ⟨cutSize_aligned hsize truncate, le_rfl, by simp, fun n _ h _ => h, WF.nil 1,
      fun x => by simp [Covered, hno x], WF.nil 1, fun x h => absurd h (hno x),
      fun x h => by simp [Covered] at h, by simp⟩
  cases truncate with
  | none => exact ⟨_, rfl, hempty fun x h => h⟩
  | some p =>
    obtain ⟨first, second⟩ := p
    rw [planTruncate]
    by_cases hlt : first < size
    · rw [if_pos hlt]
      have hcut : cutSize sinfo (some (first, second)) size = nextStripe sinfo first := if_pos hlt
      by_cases hal : StripeAligned sinfo first
      · rw [if_neg (not_not.2 hal)]
        have := hempty fun x => not_inCutStripe_of_aligned hal
        rw [hcut] at this
        exact ⟨_, rfl, this⟩
      rw [if_pos hal]
      obtain ⟨s, hs, hwf, hcov⟩ := unionInsert_spec (WF.nil 1)
        (prevStripe sinfo first) sinfo.stripeWidth_pos
      have hcov' : ∀ x, Covered s x ↔ InCutStripe sinfo (some (first, second)) size x := by
        intro x
        rw [hcov x, inCutStripe_iff hlt hal, next_eq_prev_add hal]
        simp [Covered]
      refine ⟨_, by rw [hs]; rfl, ?_⟩
      refine ⟨sinfo.next_aligned first, hcut.le, by simp, fun n _ h _ => hcut ▸ h, hwf,
        fun x => ?_, hwf, fun x h => (hcov' x).2 h, fun x h => .inl ((hcov' x).1 h), by simp⟩
      rw [hcov' x, hcut]
      simp
    · rw [if_neg hlt]
      have hcut : cutSize sinfo (some (first, second)) size = size := if_neg hlt
      have := hempty fun x => not_inCutStripe_of_le (by omega)
      rw [hcut] at this
      exact ⟨_, rfl, this⟩

/-- The stripe of an unaligned offset `b` below the projected size is added to what
is to be read, if `needed`. -/
theorem planRead_spec {projectedSize : ℕ} {toRead : ExtentSet}
    (hal : StripeAligned sinfo projectedSize)
    (hwf : WF lengths 1 toRead) (b start : ℕ) (needed : Bool)
    (hneeded : needed → start = prevStripe sinfo b ∧
      ¬ StripeAligned sinfo b ∧ start < projectedSize) :
    ∃ toRead', planRead sinfo projectedSize needed start (nextStripe sinfo b) toRead =
        some toRead' ∧ WF lengths 1 toRead' ∧ ∀ x, Covered toRead' x ↔
        (needed ∧ prevStripe sinfo x = prevStripe sinfo b) ∨ Covered toRead x := by
  cases needed with
  | false => exact ⟨toRead, rfl, hwf, fun x => by simp⟩
  | true =>
    obtain ⟨rfl, hna, hlt⟩ := hneeded rfl
    obtain ⟨s, hs, hswf, hcov⟩ := unionInsert_spec hwf (prevStripe sinfo b) sinfo.stripeWidth_pos
    have hfin := add_width_le (sinfo.prev_aligned b) hal hlt
    refine ⟨s, ?_, hswf, fun x => ?_⟩
    · rw [planRead, if_pos rfl, next_eq_prev_add hna, assert_bind hfin,
        assert_bind (Nat.add_sub_cancel_left ..), hs]
    · rw [hcov x, ← prev_eq_prev_iff, and_iff_right rfl]

theorem exists_mem_concat {α : Type*} {l : List α} {a : α} {p : α → Prop} :
    (∃ e ∈ l ++ [a], p e) ↔ (∃ e ∈ l, p e) ∨ p a := by
  simp only [mem_append, mem_singleton]
  constructor
  · rintro ⟨e, he | rfl, hp⟩
    · exact .inl ⟨e, he, hp⟩
    · exact .inr hp
  · rintro (⟨e, he, hp⟩ | hp)
    · exact ⟨e, .inl he, hp⟩
    · exact ⟨a, .inr rfl, hp⟩

theorem unaligned_iff (b : ℕ) : prevStripe sinfo b ≠ nextStripe sinfo b ↔
      ¬ StripeAligned sinfo b := by
  constructor
  · intro hne ha
    exact hne (by rw [prev_eq_self ha, next_eq_self ha])
  · intro hna heq
    rw [next_eq_prev_add hna] at heq
    have := sinfo.stripeWidth_pos
    omega

/-- A stripe in which an extent begins, or ends short of the end of the stripe, is
one it meets. -/
theorem meets_of_begins_or_ends (hpos : 0 < e.len)
    (hx : prevStripe sinfo x = prevStripe sinfo e.off ∨ ¬ StripeAligned sinfo e.stop ∧
        prevStripe sinfo x = prevStripe sinfo e.stop) :
    prevStripe sinfo e.off ≤ x ∧ x < nextStripe sinfo e.stop := by
  have hlt : e.off < e.stop := Nat.lt_add_of_pos_right hpos
  refine (meets_iff hlt).2 ?_
  rcases hx with hx | ⟨hna, hx⟩
  · exact ⟨e.off, le_rfl, hlt, hx.symm⟩
  · exact ⟨e.stop - 1, by omega, by omega, (prev_pred hna).trans hx.symm⟩

variable {plan : Planned}

/-- What a turn of the loop adds to the stripes to read: those below the projected
size in which the run begins or ends. -/
theorem planExtent_reads (hal : StripeAligned sinfo plan.projectedSize)
    (hwf : WF lengths 1 plan.toRead) {e : Extent ℕ} (hpos : 0 < e.len) {start : ℕ}
    (hstart : start = min (prevStripe sinfo e.off) plan.projectedSize) :
    ∃ r1 r2, planRead sinfo plan.projectedSize
        (start ≠ nextStripe sinfo e.off ∧ start < plan.projectedSize) start
        (nextStripe sinfo e.off) plan.toRead = some r1 ∧
      planRead sinfo plan.projectedSize (prevStripe sinfo e.stop ≠ nextStripe sinfo e.stop ∧
          (start = nextStripe sinfo e.off ∨ prevStripe sinfo e.stop ≠ start) ∧
          prevStripe sinfo e.stop < plan.projectedSize)
        (prevStripe sinfo e.stop) (nextStripe sinfo e.stop) r1 =
          some r2 ∧ WF lengths 1 r2 ∧ (∀ x, Covered plan.toRead x → Covered r2 x) ∧
      (∀ x, Covered r2 x → Covered plan.toRead x ∨
        x < plan.projectedSize ∧ prevStripe sinfo e.off ≤ x ∧
          x < nextStripe sinfo e.stop) ∧ ∀ x < plan.projectedSize,
        (¬ StripeAligned sinfo e.off ∧ prevStripe sinfo x = prevStripe sinfo e.off) ∨
        (¬ StripeAligned sinfo e.stop ∧ prevStripe sinfo x = prevStripe sinfo e.stop) →
        Covered r2 x := by
  obtain ⟨r1, hr1, hr1wf, hr1cov⟩ := planRead_spec hal hwf e.off start
    (start ≠ nextStripe sinfo e.off ∧ start < plan.projectedSize) (fun hn => by
      obtain ⟨h1, h2⟩ := of_decide_eq_true hn
      have heq : start = prevStripe sinfo e.off := by omega
      exact ⟨heq, (unaligned_iff _).1 (heq ▸ h1), h2⟩)
  obtain ⟨r2, hr2, hr2wf, hr2cov⟩ := planRead_spec hal hr1wf e.stop (prevStripe sinfo e.stop)
    (prevStripe sinfo e.stop ≠ nextStripe sinfo e.stop ∧ (start = nextStripe sinfo e.off ∨
        prevStripe sinfo e.stop ≠ start) ∧
      prevStripe sinfo e.stop < plan.projectedSize) (fun hn => by
      obtain ⟨h1, -, h3⟩ := of_decide_eq_true hn
      exact ⟨rfl, (unaligned_iff _).1 h1, h3⟩)
  have hlt : ∀ x b, prevStripe sinfo b < plan.projectedSize →
      prevStripe sinfo x = prevStripe sinfo b →
      x < plan.projectedSize := fun x b hb heq => (prev_lt_iff hal).1 (heq ▸ hb)
  refine ⟨r1, r2, hr1, hr2, hr2wf, fun x hx => (hr2cov x).2 (.inr ((hr1cov x).2 (.inr hx))),
    fun x hx => ?_, fun x hx hor => ?_⟩
  · rcases (hr2cov x).1 hx with ⟨hn, heq⟩ | hx
    · obtain ⟨h1, -, h3⟩ := of_decide_eq_true hn
      exact .inr ⟨hlt x _ h3 heq, meets_of_begins_or_ends hpos (.inr ⟨(unaligned_iff _).1 h1, heq⟩)⟩
    · rcases (hr1cov x).1 hx with ⟨hn, heq⟩ | hx
      · obtain ⟨-, h2⟩ := of_decide_eq_true hn
        exact .inr ⟨hlt x _ (by omega) heq, meets_of_begins_or_ends hpos (.inl heq)⟩
      · exact .inl hx
  · have hbelow : ∀ b, prevStripe sinfo x = prevStripe sinfo b →
        prevStripe sinfo b < plan.projectedSize := fun b heq =>
      heq ▸ (sinfo.prev_le x).trans_lt hx
    rcases hor with ⟨hna, heq⟩ | ⟨hna, heq⟩
    · have hb := hbelow _ heq
      have hse : start = prevStripe sinfo e.off := by omega
      exact (hr2cov x).2 (.inr ((hr1cov x).2 (.inl
        ⟨decide_eq_true ⟨hse ▸ (unaligned_iff _).2 hna, by omega⟩, heq⟩)))
    have hb := hbelow _ heq
    by_cases hhead : start = nextStripe sinfo e.off ∨ prevStripe sinfo e.stop ≠ start
    · exact (hr2cov x).2 (.inl
        ⟨decide_eq_true ⟨(unaligned_iff _).2 hna, hhead, hb⟩, heq⟩)
    · -- the run begins in the stripe it ends in, which has been read already
      obtain ⟨h1, h2⟩ := not_or.1 hhead
      rw [not_not] at h2
      have hse : start = prevStripe sinfo e.off := by omega
      exact (hr2cov x).2 (.inr ((hr1cov x).2 (.inl
        ⟨decide_eq_true ⟨h1, by omega⟩, by rw [heq, h2, hse]⟩)))

/-- What a turn of the loop adds to the stripes to write. -/
theorem planExtent_writes {cut proj start a b : ℕ} (hcut : cut ≤ proj) (hstart : start = min a proj)
    (hlt : start < b) {p q : Prop} (hp : p → x < cut) :
    (start ≤ x ∧ x < start + (b - start)) ∨ (p ∨ (x < cut ∧ q) ∨ (cut ≤ x ∧ x < proj)) ↔
      p ∨ (x < cut ∧ (q ∨ (a ≤ x ∧ x < b))) ∨ (cut ≤ x ∧ x < max proj b) := by
  by_cases hx : x < cut
  · have h1 : (start ≤ x ∧ x < start + (b - start)) ↔ (a ≤ x ∧ x < b) := by omega
    have h2 : ¬ cut ≤ x := by omega
    simp only [h1, hx, h2, true_and, false_and, or_false]
    exact or_left_comm.trans (or_congr_right or_comm)
  · have hnp : ¬ p := fun h => hx (hp h)
    simp only [hnp, hx, false_and, false_or]
    omega

/-- One turn of the loop. -/
theorem planExtent_inv {pre : ExtentSet} (h : PlanInv sinfo truncate size pre plan) {e : Extent ℕ}
    (hpos : 0 < e.len) :
    ∃ plan', planExtent sinfo plan e = some plan' ∧
      PlanInv sinfo truncate size (pre ++ [e]) plan' := by
  obtain ⟨start, hstart⟩ : ∃ start, start =
    min (prevStripe sinfo e.off) plan.projectedSize := ⟨_, rfl⟩
  obtain ⟨r1, r2, hr1, hr2, hr2wf, hmono, hsub, hreads⟩ :=
    planExtent_reads h.aligned h.toRead_wf hpos hstart
  have hans := sinfo.next_aligned e.stop
  have hstart_al : StripeAligned sinfo start := by
    rcases min_choice (prevStripe sinfo e.off) plan.projectedSize with hm | hm
    · rw [hstart, hm]
      exact sinfo.prev_aligned _
    · rw [hstart, hm]
      exact h.aligned
  have hlt : start < nextStripe sinfo e.stop := by
    have h1 := sinfo.prev_le e.off
    have h2 := sinfo.le_next e.stop
    have h3 := e.stop_eq
    omega
  obtain ⟨ww, hwins, hwwf, hwcov⟩ := unionInsert_spec h.willWrite_wf start
    (show 0 < nextStripe sinfo e.stop - start by omega)
  refine ⟨⟨max plan.projectedSize (nextStripe sinfo e.stop), r2, ww⟩, ?_, ?_⟩
  · rw [planExtent, ← hstart]
    rw [hr1]
    simp only [bind_eq_bind, bind_some]
    rw [hr2, bind_some, if_pos (by omega), ← bind_eq_bind,
      assert_bind (aligned_sub hans hstart_al), hwins]
    rfl
  constructor
  · exact aligned_max h.aligned hans
  · exact h.cut_le.trans (le_max_left _ _)
  · intro y hy
    rcases mem_append.1 hy with hy | hy
    · exact (h.next_le y hy).trans (le_max_left _ _)
    · rw [mem_singleton.1 hy]
      exact le_max_right _ _
  · intro n hn hc hle
    refine max_le (h.least n hn hc fun y hy => hle y (mem_append_left _ hy)) ?_
    exact (next_le_iff hn).2 (hle e (by simp))
  · exact hwwf
  · intro x
    rw [hwcov x, h.willWrite x, exists_mem_concat]
    exact planExtent_writes h.cut_le hstart hlt InCutStripe.lt_cutSize
  · exact hr2wf
  · exact fun x hx => hmono x (h.reads_cut x hx)
  · intro x hx
    rw [exists_mem_concat]
    rcases hsub x hx with hx | ⟨hxp, hx⟩
    · rcases h.reads_sub x hx with hx | ⟨hxp, hx⟩
      · exact .inl hx
      · exact .inr ⟨lt_max_of_lt_left hxp, .inl hx⟩
    · exact .inr ⟨lt_max_of_lt_left hxp, .inr hx⟩
  · intro y hy x hx hor
    rcases mem_append.1 hy with hy | hy
    · exact hmono x (h.reads y hy x hx hor)
    · obtain rfl := mem_singleton.1 hy
      exact hreads x (hx.trans_le h.cut_le) hor

/-! ## The plan -/

theorem rawWriteSet_eq {updates : IntervalMap BufferUpdate}
    (hdata : ∀ e ∈ updates, e.val.IsData) : rawWriteSet updates = ofMap updates := by
  rw [rawWriteSet, ofMap]
  generalize ([] : ExtentSet) = raw
  induction updates generalizing raw with
  | nil => rfl
  | cons e updates ih =>
    have hstep : rawWriteStep raw e = insertNew e.off e.len raw := by
      have he := hdata e mem_cons_self
      rw [rawWriteStep]
      cases hv : e.val with
      | write buffer flags => rfl
      | zero len => rfl
      | cloneRange source off len =>
        rw [hv] at he
        exact absurd he id
    rw [foldlM_cons]
    congr 1
    funext raw'
    exact ih (fun y hy => hdata y (mem_cons_of_mem _ hy)) raw'

/-- The plan for an operation on an object of `size` bytes that leaves `n` bytes. -/
structure PlanSpec (sinfo : StripeInfo) (op : ObjectOperation) (hinfo : HashInfo) (size n : ℕ)
    (plan : WritePlan) : Prop where
  finalSize : IsFinalSize sinfo op size n
  hinfo : plan.hinfo = { hinfo with
    projectedTotalChunkSize := sinfo.logicalToPrevChunkOffset n }
  willWrite_wf : WF lengths 1 plan.willWrite
  willWrite : ∀ x, Covered plan.willWrite x ↔ InCutStripe sinfo op.truncate size x ∨
    (x < cutSize sinfo op.truncate size ∧ Touched sinfo op.bufferUpdates x) ∨
    (cutSize sinfo op.truncate size ≤ x ∧ x < n)
  toRead_wf : WF lengths 1 plan.toRead
  reads_cut : ∀ x, InCutStripe sinfo op.truncate size x → Covered plan.toRead x
  reads_sub : ∀ x, Covered plan.toRead x → InCutStripe sinfo op.truncate size x ∨
    (x < n ∧ Touched sinfo op.bufferUpdates x)
  reads : ∀ x < cutSize sinfo op.truncate size, Touched sinfo op.bufferUpdates x →
    Covered op.bufferUpdates x ∨ Covered plan.toRead x

variable {op : ObjectOperation}

/-- The loop over the whole raw write set. -/
theorem planExtents_spec {limit : ℕ} (hwf : op.WF limit) (hsize : StripeAligned sinfo size) :
    ∃ plan₀ raw plan, planTruncate sinfo op.truncate size = some plan₀ ∧
      rawWriteSet op.bufferUpdates = some raw ∧
      raw.foldlM (planExtent sinfo) plan₀ = some plan ∧ WF lengths 1 raw ∧
      (∀ x, Covered raw x ↔ Covered op.bufferUpdates x) ∧
      PlanInv sinfo op.truncate size raw plan := by
  obtain ⟨plan₀, hplan₀, hinv₀⟩ := planTruncate_inv op.truncate hsize
  obtain ⟨raw, hraw, hrawwf, hrawcov⟩ := ofMap_spec hwf.updates
  obtain ⟨plan, hplan, hinv⟩ := Loop.foldlM_invariant (PlanInv sinfo op.truncate size) hinv₀
    (l := raw) fun pre e post acc hl hacc =>
      planExtent_inv hacc (hrawwf.sized e (hl ▸ by simp)).1
  exact ⟨plan₀, raw, plan, hplan₀, (rawWriteSet_eq hwf.data).trans hraw, hplan, hrawwf,
    hrawcov, hinv⟩

/-- `n` is the size `old`, extended to the last truncation. -/
structure ExtendsTo (sinfo : StripeInfo) (truncate : Option (ℕ × ℕ)) (old n : ℕ) : Prop where
  aligned : sinfo.LogicalOffsetIsStripeAligned n
  le : old ≤ n
  truncate_le : ∀ first second, truncate = some (first, second) → second ≤ n
  least : ∀ m, sinfo.LogicalOffsetIsStripeAligned m → old ≤ m →
    (∀ first second, truncate = some (first, second) → second ≤ m) → n ≤ m

namespace ExtendsTo

variable {old n first second : ℕ}

theorem none (h : StripeAligned sinfo old) : ExtendsTo sinfo none old old :=
  ⟨h, le_rfl, by simp, fun _ _ hle _ => hle⟩

theorem keep (h : StripeAligned sinfo old) (hle : second ≤ old) :
    ExtendsTo sinfo (some (first, second)) old old := by
  refine ⟨h, le_rfl, fun f s hfs => ?_, fun _ _ hm _ => hm⟩
  obtain ⟨-, rfl⟩ := Prod.mk.inj (some_inj.1 hfs)
  exact hle

theorem next (hlt : old < second) :
    ExtendsTo sinfo (some (first, second)) old (nextStripe sinfo second) := by
  have hnext := sinfo.le_next second
  refine ⟨sinfo.next_aligned _, by omega, fun f s hfs => ?_, fun m hm _ hs => ?_⟩
  · obtain ⟨-, rfl⟩ := Prod.mk.inj (some_inj.1 hfs)
    exact hnext
  · exact (next_le_iff hm).2 (hs first second rfl)

/-- The least size that takes in the cut object and the updates, extended to the
last truncation, is the final size. -/
theorem isFinalSize (h : ExtendsTo sinfo op.truncate old n)
    (hcut : cutSize sinfo op.truncate size ≤ old) (hcov : ∀ x, Covered op.bufferUpdates x → x < old)
    (hleast : ∀ m, Encloses sinfo op size m → old ≤ m) : IsFinalSize sinfo op size n :=
  ⟨⟨h.aligned, hcut.trans h.le, fun x hx => (hcov x hx).trans_le h.le, h.truncate_le⟩,
    fun m hm => h.least m hm.aligned (hleast m hm) hm.truncate_le⟩

end ExtendsTo

/-- The last truncation may extend the object once more. -/
theorem planTruncateOut_spec (truncate : Option (ℕ × ℕ))
    (hal : StripeAligned sinfo plan.projectedSize)
    (hwf : WF lengths 1 plan.willWrite) :
    ∃ n ww, planTruncateOut sinfo truncate plan = some ⟨n, plan.toRead, ww⟩ ∧
      ExtendsTo sinfo truncate plan.projectedSize n ∧ WF lengths 1 ww ∧
      ∀ x, Covered ww x ↔ (plan.projectedSize ≤ x ∧ x < n) ∨ Covered plan.willWrite x := by
  have hkeep : ∀ x, Covered plan.willWrite x ↔
      (plan.projectedSize ≤ x ∧ x < plan.projectedSize) ∨ Covered plan.willWrite x := by
    intro x
    have : ¬ (plan.projectedSize ≤ x ∧ x < plan.projectedSize) := by omega
    simp only [this, false_or]
  cases truncate with
  | none => exact ⟨_, _, rfl, ExtendsTo.none hal, hwf, hkeep⟩
  | some p =>
    obtain ⟨-, second⟩ := p
    rw [planTruncateOut]
    by_cases hgt : second > plan.projectedSize
    · have hnext := sinfo.le_next second
      obtain ⟨ww, hww, hwwf, hwcov⟩ := unionInsert_spec hwf plan.projectedSize
        (show 0 < nextStripe sinfo second - plan.projectedSize by omega)
      rw [Nat.add_sub_cancel' (by omega)] at hwcov
      simp only [if_pos hgt, hww]
      exact ⟨_, ww, rfl, ExtendsTo.next hgt, hwwf, hwcov⟩
    · rw [if_neg hgt]
      exact ⟨_, _, rfl, ExtendsTo.keep hal (by omega), hwf, hkeep⟩

/-- **The plan.**  None of the assertions of `get_write_plan` fails. -/
theorem getWritePlan_spec (hop : op.Plain) {limit : ℕ} (hwf : op.WF limit) {hinfo : HashInfo}
    (getHinfo : Soid → HashInfo)
    (hsize : StripeAligned sinfo (hinfo.getProjectedTotalLogicalSize sinfo)) :
    ∃ plan n, getWritePlan sinfo op hinfo getHinfo = some plan ∧
      PlanSpec sinfo op hinfo (hinfo.getProjectedTotalLogicalSize sinfo) n plan := by
  obtain ⟨size, hs⟩ : ∃ size, size = hinfo.getProjectedTotalLogicalSize sinfo := ⟨_, rfl⟩
  rw [← hs] at hsize ⊢
  obtain ⟨plan₀, raw, plan, hplan₀, hraw, hplan, hrawwf, hrawcov, hinv⟩ :=
    planExtents_spec hwf hsize
  have hsource : op.hasSource = none := by
    rcases hop.initType with h | h <;> rw [ObjectOperation.hasSource, h]
  have hstart : startSize sinfo op hinfo getHinfo = size := by
    rw [startSize, hsource, hop.deleteFirst, hs]
    rfl
  have htouched : ∀ x, (∃ e ∈ raw, prevStripe sinfo e.off ≤ x ∧
      x < nextStripe sinfo e.stop) ↔ Touched sinfo op.bufferUpdates x := by
    intro x
    rw [← touched_iff hrawwf, Touched, Touched]
    simp only [hrawcov]
  have hcovlt : ∀ x, Covered op.bufferUpdates x → x < plan.projectedSize := by
    intro x hx
    obtain ⟨e, he, -, hlt⟩ := (hrawcov x).2 hx
    exact hlt.trans_le ((sinfo.le_next _).trans (hinv.next_le e he))
  have hleast : ∀ n, Encloses sinfo op size n → plan.projectedSize ≤ n := by
    intro n hn
    refine hinv.least n hn.aligned hn.cut_le fun e he => ?_
    exact hrawwf.stop_le (fun x hx => hn.covered_lt x ((hrawcov x).1 hx)) he
  obtain ⟨n, ww, hout, hext, hwwf, hwcov⟩ :=
    planTruncateOut_spec op.truncate hinv.aligned hinv.willWrite_wf
  have hfinal : IsFinalSize sinfo op size n := hext.isFinalSize hinv.cut_le hcovlt hleast
  have hset : hinfo.setProjectedTotalLogicalSize sinfo n = some { hinfo with
      projectedTotalChunkSize := prevChunk sinfo n } := by
    rw [HashInfo.setProjectedTotalLogicalSize, assert_bind hfinal.1.aligned,
      alignedToChunk_of_aligned hfinal.1.aligned]
    rfl
  refine ⟨⟨false, plan.toRead, ww, _⟩, n, ?_, hfinal, rfl, hwwf, fun x => ?_, hinv.toRead_wf,
    hinv.reads_cut, fun x hx => ?_, fun x hx ht => ?_⟩
  · rw [getWritePlan, hstart, hplan₀, hraw]
    simp only [bind_eq_bind, bind_some]
    rw [hplan, bind_some, hout, bind_some, hset, bind_some,
      ← bind_eq_bind, assert_bind (.inr hsource), hsource]
    rfl
  · rw [hwcov x, hinv.willWrite x, htouched x]
    have hcut := hinv.cut_le
    have hle := hext.le
    by_cases hx : x < cutSize sinfo op.truncate size
    · have h1 : ¬ (plan.projectedSize ≤ x ∧ x < n) := by omega
      have h2 : ¬ cutSize sinfo op.truncate size ≤ x := by omega
      simp only [h1, h2, false_and, false_or]
    · have hno : ¬ InCutStripe sinfo op.truncate size x := fun h => hx h.lt_cutSize
      simp only [hno, hx, false_and, false_or]
      omega
  · rcases hinv.reads_sub x hx with hx | ⟨hxp, hx⟩
    · exact .inl hx
    · exact .inr ⟨hxp.trans_le hext.le, (htouched x).1 hx⟩
  · obtain ⟨e, he, h1, h2⟩ := (htouched x).2 ht
    rcases mem_or_begins_or_ends h1 h2 with hc | hor
    · exact .inl ((hrawcov x).1 ⟨e, he, hc⟩)
    · exact .inr (hinv.reads e he x hx hor)

end Ceph.Osd
