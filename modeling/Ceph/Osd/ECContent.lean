import Ceph.Osd.ECGenerate

/-!
# The content after an erasure coded write

What `generate_transactions` encodes, laid over what the truncation of the shards
leaves in place, against the calls of the transaction applied one after the other
to the old content.  They agree up to one case: behind an update in the stripe
that is cut, the code fills up with zeros to the end of the stripe although old
bytes below the truncation may follow (`KeepsTail`).
-/

namespace Ceph.Osd

open IntervalMap StripeInfo List Option ObjectOperation
open StripeInfo renaming logicalToPrevStripeOffset → prevStripe, logicalToNextStripeOffset →
  nextStripe

variable {env : GenEnv}

/-- The byte of the object at `x` once the transaction of shard `s` is applied: the
one that was encoded, else the old one if it was left in place. -/
def byteAfter (env : GenEnv) (old : Buffer) (out : Gen) (s x : ℕ) : Byte :=
  (get byteOf out.written x).getD
    (if x < bytesLeft env.sinfo env.oid (out.transactions s) old.length then old.getD x 0 else 0)

/-- The bytes read are those of the object. -/
structure SuppliesOld (toRead : ExtentSet) (old : Buffer) (read : ExtentMap) : Prop
    extends Supplies toRead read where
  bytes : ∀ x < old.length, Covered read x → get byteOf read x = some (old.getD x 0)

/-- In the stripe of the lowest truncation, no old byte that is to be kept follows
an update, unless it is zero. -/
def KeepsTail (sinfo : StripeInfo) (op : ObjectOperation) (old : Buffer) : Prop :=
  ∀ first second, op.truncate = some (first, second) → first < old.length →
    ∀ x y, sinfo.logicalToPrevStripeOffset first ≤ y → y < x → x < first →
      Covered op.bufferUpdates y → ¬ Covered op.bufferUpdates x → old.getD x 0 = 0

/-! ## The size -/

variable {sinfo : StripeInfo} {limit : ℕ} {old : Buffer}

/-- The object ends with the last stripe of its content. -/
theorem Folded.isFinalSize {content : Buffer} {op : ObjectOperation}
    (h : Folded limit old op content) :
    IsFinalSize sinfo op old.length (nextStripe sinfo content.length) := by
  have hle := sinfo.le_next content.length
  have hbase := h.base_le
  constructor
  · constructor
    · exact sinfo.next_aligned _
    · cases htr : op.truncate with
      | none =>
        rw [baseSize, htr] at hbase
        exact hbase.trans hle
      | some p =>
        obtain ⟨first, second⟩ := p
        rw [baseSize, htr] at hbase
        have hfs := (h.wf.truncated first second htr).1
        rw [cutSize]
        split
        · exact next_mono (hfs.trans hbase)
        · simp only at hbase
          omega
    · intro x hx
      exact (h.covered_lt x hx).trans_le hle
    · intro first second htr
      rw [baseSize, htr] at hbase
      exact hbase.trans hle
  · intro m hm
    rw [next_le_iff hm.aligned]
    rcases h.size with heq | ⟨-, hc⟩
    · rw [heq, baseSize]
      cases htr : op.truncate with
      | none =>
        have := hm.cut_le
        rwa [htr] at this
      | some p => exact hm.truncate_le p.1 p.2 htr
    · have := hm.covered_lt _ hc
      omega

/-! ## The bytes -/

/-- Zeros are filled in behind an update of the stripe that is cut. -/
theorem padded_iff {op : ObjectOperation} {first x : ℕ} (hwf : op.WF limit) (hx : x < first)
    (hnot : ¬ Covered op.bufferUpdates x) :
    Padded sinfo (prevStripe sinfo first) op.bufferUpdates x ↔
      ∃ y, prevStripe sinfo first ≤ y ∧ y < x ∧ Covered op.bufferUpdates y := by
  constructor
  · rintro ⟨e, he, h1, h2, -⟩
    have hlt := hwf.updates.off_lt_stop he
    exact ⟨e.stop - 1, by omega, by omega, e, he, by omega, by omega⟩
  · rintro ⟨y, h1, h2, e, he, h3, h4⟩
    have hle : e.stop ≤ x := by
      by_contra hlt
      exact hnot ⟨e, he, by omega, by omega⟩
    have hfirst := sinfo.lt_prev_add first
    have hnext := add_width_le (sinfo.prev_aligned first) (sinfo.next_aligned e.stop)
      (show _ < _ from (by omega : _ < e.stop).trans_le (sinfo.le_next e.stop))
    exact ⟨e, he, by omega, hle, by omega⟩

variable {read : ExtentMap}

/-- An object that is not cut keeps what is not updated. -/
theorem getD_uncut (sinfo : StripeInfo) (updates : IntervalMap BufferUpdate) (old : Buffer) {n : ℕ}
    (hlt : ∀ x, Covered read x → x < n)
    (hbytes : ∀ x < old.length, Covered read x → get byteOf read x = some (old.getD x 0)) (x : ℕ) :
    (if Padded sinfo old.length updates x ∨ (old.length ≤ x ∧ x < n) then some 0
      else get byteOf read x).getD (if x < old.length then old.getD x 0 else 0) = old.getD x 0 := by
  by_cases hx : x < old.length
  · have hfill : ¬ (Padded sinfo old.length updates x ∨ (old.length ≤ x ∧ x < n)) := by
      rintro (⟨e, -, h1, h2, -⟩ | h) <;> omega
    rw [if_neg hfill, if_pos hx]
    by_cases hc : Covered read x
    · rw [hbytes x hx hc, getD_some]
    · rw [(get_eq_none_iff_not_covered _ _ _).2 hc, getD_none]
  · have hzero : old.getD x 0 = 0 := getD_eq_default _ _ (by omega)
    rw [hzero]
    split
    · rfl
    next hfill =>
      have hc : ¬ Covered read x := fun hc => hfill (.inr ⟨by omega, hlt x hc⟩)
      rw [(get_eq_none_iff_not_covered _ _ _).2 hc, getD_none]

/-- An object that is cut at `first` keeps what is below, but for the zeros filled
in behind an update. -/
theorem getD_cut (sinfo : StripeInfo) (updates : IntervalMap BufferUpdate) (n : ℕ) {first : ℕ}
    (hfirst : first < old.length)
    (hbytes : ∀ x < old.length, Covered read x → get byteOf read x = some (old.getD x 0)) (x : ℕ) :
    (if Padded sinfo (prevStripe sinfo first) updates x ∨
        (nextStripe sinfo first ≤ x ∧ x < n) then some 0
      else if x < nextStripe sinfo first then
        if first ≤ x then some 0 else get byteOf read x else none).getD
        (if x < nextStripe sinfo first then old.getD x 0 else 0) =
      if x < first ∧ ¬ Padded sinfo (prevStripe sinfo first) updates x
      then old.getD x 0 else 0 := by
  have hnext := sinfo.le_next first
  by_cases hp : Padded sinfo (prevStripe sinfo first) updates x
  · simp only [hp, true_or, if_true, not_true_eq_false, and_false, if_false, getD_some]
  simp only [hp, false_or, not_false_eq_true, and_true]
  by_cases hx : x < first
  · have hlt : x < nextStripe sinfo first := by omega
    have hge : ¬ nextStripe sinfo first ≤ x := by omega
    have hle : ¬ first ≤ x := by omega
    simp only [hx, hlt, hge, hle, false_and, if_false, if_true]
    by_cases hc : Covered read x
    · rw [hbytes x (by omega) hc, getD_some]
    · rw [(get_eq_none_iff_not_covered _ _ _).2 hc, getD_none]
  · have hle : first ≤ x := by omega
    simp only [hx, hle, if_false, if_true]
    by_cases hlt : x < nextStripe sinfo first
    · simp only [hlt, if_true, ite_self, getD_some]
    · split <;> rfl

/-- An old byte that is to be kept and is overwritten with a zero. -/
def Clobbered (sinfo : StripeInfo) (op : ObjectOperation) (size x : ℕ) : Prop :=
  op.update x = none ∧ ∃ first second, op.truncate = some (first, second) ∧ first < size ∧
    x < first ∧ Padded sinfo (sinfo.logicalToPrevStripeOffset first) op.bufferUpdates x

/-- What is encoded and left in place, byte by byte. -/
theorem byteAfter_eq {op : ObjectOperation} {content : Buffer} (hf : Folded limit old op content)
    {n : ℕ} {hinfo : HashInfo} {plan : WritePlan}
    (hplan : PlanSpec env.sinfo op hinfo old.length n plan)
    (hread : SuppliesOld plan.toRead old read) {out : Gen}
    (hout : Outcome env op old.length n plan read out) (s x : ℕ) :
    (¬ Clobbered env.sinfo op old.length x → byteAfter env old out s x = content.getD x 0) ∧
      (Clobbered env.sinfo op old.length x →
        byteAfter env old out s x = 0 ∧ content.getD x 0 = old.getD x 0) := by
  have hlt : ∀ x, Covered read x → x < n := by
    intro x hx
    rcases hplan.reads_sub x ((hread.covered x).1 hx) with h | ⟨h, -⟩
    · exact h.lt_cutSize.trans_le hplan.finalSize.1.cut_le
    · exact h
  rw [byteAfter, hout.bytes x, hout.left s, hf.bytes x, byteAt, layout, Clobbered]
  cases hu : get BufferUpdate.byte op.bufferUpdates x with
  | some b =>
    have hu' : op.update x = some b := hu
    rw [hu']
    exact ⟨fun _ => rfl, fun h => absurd h.1 (some_ne_none b)⟩
  | none =>
    have hu' : op.update x = none := hu
    simp only [hu', true_and, getD_none]
    cases hr : op.recreates with
    | true =>
      obtain ⟨-, hzero⟩ := Bool.and_eq_true_iff.1 hr
      obtain ⟨⟨first, second⟩, htr, hfirst⟩ := of_map (of_decide_eq_true hzero)
      obtain rfl : first = 0 := hfirst
      rw [restTruncate, restSize, keptByte, hr, htr]
      refine ⟨fun _ => ?_, ?_⟩
      · exact (getD_uncut _ _ [] hlt (fun y hy => absurd hy (Nat.not_lt_zero y)) x).trans
          (if_neg (Nat.not_lt_zero x)).symm
      · rintro ⟨a, b, hab, -, hx, -⟩
        cases hab
        exact absurd hx (Nat.not_lt_zero x)
    | false =>
      rw [restTruncate, restSize, hr, keptByte]
      simp only [Bool.false_eq_true, if_false]
      cases htr : op.truncate with
      | none =>
        refine ⟨fun _ => getD_uncut _ _ old hlt hread.bytes x, ?_⟩
        rintro ⟨a, b, hab, -⟩
        cases hab
      | some p =>
        obtain ⟨first, second⟩ := p
        simp only [Option.some.injEq, Prod.mk.injEq, appendPoint, cutSize, baseOf]
        by_cases hfirst : first < old.length
        · have hcut := getD_cut env.sinfo op.bufferUpdates n hfirst hread.bytes x
          simp only [hfirst, if_true]
          rw [hcut]
          constructor
          · intro hno
            by_cases hx : x < first
            · have hp : ¬ Padded env.sinfo (prevStripe env.sinfo first)
                  op.bufferUpdates x := fun hp => hno ⟨first, second, ⟨rfl, rfl⟩, hfirst, hx, hp⟩
              rw [if_pos ⟨hx, hp⟩, if_pos hx]
            · rw [if_neg fun h => hx h.1, if_neg hx]
          · rintro ⟨a, b, ⟨rfl, rfl⟩, -, hx, hp⟩
            rw [if_neg fun h => h.2 hp, if_pos hx]
            exact ⟨rfl, rfl⟩
        · have huncut := getD_uncut env.sinfo op.bufferUpdates old hlt hread.bytes x
          simp only [hfirst, if_false]
          rw [huncut]
          refine ⟨fun _ => ?_, ?_⟩
          · split
            · rfl
            · exact getD_eq_default _ _ (by omega)
          · rintro ⟨a, b, ⟨rfl, rfl⟩, h, -⟩
            exact absurd h hfirst

/-- `KeepsTail` says that no byte is lost. -/
theorem keepsTail_iff {op : ObjectOperation} (hwf : op.WF limit) (old : Buffer) :
    KeepsTail sinfo op old ↔ ∀ x, Clobbered sinfo op old.length x → old.getD x 0 = 0 := by
  have hcov : ∀ x, op.update x = none ↔ ¬ Covered op.bufferUpdates x := fun x =>
    get_eq_none_iff_not_covered _ _ _
  constructor
  · rintro h x ⟨hnone, first, second, htr, hfirst, hx, hp⟩
    obtain ⟨y, h1, h2, hy⟩ := (padded_iff hwf hx ((hcov x).1 hnone)).1 hp
    exact h first second htr hfirst x y h1 h2 hx hy ((hcov x).1 hnone)
  · intro h first second htr hfirst x y h1 h2 hx hy hnot
    exact h x ⟨(hcov x).2 hnot, first, second, htr, hfirst, hx,
      (padded_iff hwf hx hnot).2 ⟨y, h1, h2, hy⟩⟩

section Request

variable {calls : List Call} {op : ObjectOperation} {entry : Option (PgLogEntry Soid)}
  {obc : Option ObjectContext} {hinfo : HashInfo}

end Request

end Ceph.Osd
