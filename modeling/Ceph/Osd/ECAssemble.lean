import Ceph.Osd.ECPlan

/-!
# What is laid out to be written

The middle part of `generate_transactions`: the stripes read are cut at the
lowest truncation, the buffer updates are laid over them, and the object is
extended to its last size.  `layout` says byte by byte what comes out
(`truncateOut_spec`): an update, else a zero where the code fills up, else what
was read.

Zeros fill the space from the cut to the end of the object, and the rest of a
stripe behind an update that ends after the append point (`Padded`).  With the
stripes of the plan read, exactly the bytes of `will_write` are laid out
(`covered_layout`).
-/

namespace Ceph.Osd

open IntervalMap StripeInfo List Option BufferUpdate
open StripeInfo renaming logicalToPrevStripeOffset → prevStripe,
  logicalToNextStripeOffset → nextStripe, LogicalOffsetIsStripeAligned → StripeAligned

variable {sinfo : StripeInfo}

/-- The byte of a buffer at an offset. -/
def byteOf (bl : Buffer) (i : ℕ) : Byte := bl.getD i 0

theorem blSplitMerge_lawful : blSplitMerge.Lawful byteOf where
  length_split := by
    intro a o l h
    simp only [blSplitMerge, length_take, length_drop] at *
    omega
  at_split := by
    intro a o l i h hi
    simp only [blSplitMerge, byteOf, getD_eq_getElem?_getD, List.getElem?_take_of_lt hi,
      List.getElem?_drop]
  length_merge := fun a b _ => List.length_append
  at_merge_left := fun a b i _ hi => List.getD_append _ _ _ _ hi
  at_merge_right := by
    intro a b i _ _
    simp only [blSplitMerge, byteOf]
    rw [getD_append_right _ _ _ _ (by omega), Nat.add_sub_cancel_left]

/-- Buffers can always be merged, so runs stay apart. -/
theorem blSplitMerge_runs : (1 : ℕ) = 0 ∨ (1 : ℕ) = 1 ∧ ∀ a b, blSplitMerge.canMerge a b = true :=
  .inr ⟨rfl, fun _ _ => rfl⟩

/-- Where appending begins: at the size of the object, or at the stripe of the
lowest truncation. -/
def appendPoint (sinfo : StripeInfo) (truncate : Option (ℕ × ℕ)) (size : ℕ) : ℕ :=
  match truncate with
  | none => size
  | some (first, _) => if first < size then sinfo.logicalToPrevStripeOffset first else size

/-- `x` is in the rest of the stripe behind an update that ends after `after`. -/
def Padded (sinfo : StripeInfo) (after : ℕ) (updates : IntervalMap BufferUpdate) (x : ℕ) : Prop :=
  ∃ e ∈ updates, after < e.stop ∧ e.stop ≤ x ∧ x < sinfo.logicalToNextStripeOffset e.stop

instance (after : ℕ) (updates : IntervalMap BufferUpdate) (x : ℕ) :
    Decidable (Padded sinfo after updates x) :=
  inferInstanceAs (Decidable (∃ e ∈ updates, _))

/-- What is at `x` when `updates` have been laid over `base`, and zeros from `cut`
to `size`. -/
def layout (sinfo : StripeInfo) (after cut size : ℕ) (updates : IntervalMap BufferUpdate)
    (base : ℕ → Option Byte) (x : ℕ) : Option Byte :=
  match get byte updates x with
  | some b => some b
  | none => if Padded sinfo after updates x ∨ (cut ≤ x ∧ x < size) then some 0 else base x

/-! ## One update -/

variable {e : Extent BufferUpdate}

/-- The bytes of an update. -/
theorem updateData_spec (hdata : e.val.IsData) (hlen : e.val.length = e.len) :
    ∃ bl flags, updateData e = some (bl, flags) ∧ bl.length = e.len ∧
      ∀ i, bl.getD i 0 = e.val.byte i := by
  rw [updateData]
  cases hv : e.val with
  | write buffer flags =>
    rw [hv] at hlen
    exact ⟨buffer, flags, rfl, hlen, fun i => rfl⟩
  | zero len => exact ⟨zeros e.len, 0, rfl, length_zeros _, fun i => getD_zeros _ _⟩
  | cloneRange source off len =>
    rw [hv] at hdata
    exact absurd hdata id

/-- The number of zeros behind an update. -/
theorem tail_eq (sinfo : StripeInfo) (after stop : ℕ) :
    stop + (if ¬ StripeAligned sinfo stop ∧ stop > after then
      nextStripe sinfo stop - stop else 0) =
      if after < stop then nextStripe sinfo stop else stop := by
  have hle := sinfo.le_next stop
  by_cases hal : StripeAligned sinfo stop
  · rw [if_neg fun h => h.1 hal, next_eq_self hal]
    split <;> rfl
  · by_cases hlt : after < stop
    · rw [if_pos ⟨hal, hlt⟩, if_pos hlt]
      omega
    · rw [if_neg fun h => hlt h.2, if_neg hlt]
      rfl

/-- What holds when the updates `pre` have been laid out over `base`. -/
structure LayoutInv (sinfo : StripeInfo) (after cut : ℕ) (base : ℕ → Option Byte)
    (pre : IntervalMap BufferUpdate) (a : Assembly) : Prop where
  appendAfter : a.appendAfter = after
  after_le : after ≤ cut
  aligned : sinfo.LogicalOffsetIsStripeAligned a.newSize
  cut_le : cut ≤ a.newSize
  stop_le : ∀ e ∈ pre, e.stop ≤ a.newSize
  least : ∀ n, sinfo.LogicalOffsetIsStripeAligned n → cut ≤ n → (∀ e ∈ pre, e.stop ≤ n) →
    a.newSize ≤ n
  wf : WF blSplitMerge 1 a.toWrite
  bytes : ∀ x, get byteOf a.toWrite x = layout sinfo after cut a.newSize pre base x

/-- The bytes inserted for an update: zeros in front, the data, zeros behind. -/
theorem getD_filled {bl : Buffer} {off start stop : ℕ} (stop' : ℕ) {x : ℕ}
    (hlen : bl.length = stop - off) (hoff : start ≤ off) (hle : off ≤ stop) (hx1 : start ≤ x) :
    (zeros (off - start) ++ bl ++ zeros (stop' - stop)).getD (x - start) 0 =
      if off ≤ x ∧ x < stop then bl.getD (x - off) 0 else 0 := by
  rw [Osd.getD_append, List.length_append, getD_zeros, Osd.getD_append, length_zeros, getD_zeros]
  by_cases h1 : x < off
  · rw [if_pos (by omega), if_pos (by omega), if_neg (by omega)]
  · by_cases h2 : x < stop
    · rw [if_pos (by omega), if_neg (by omega), if_pos (by omega)]
      congr 1
      omega
    · rw [if_neg (by omega), if_neg (by omega)]

variable {after cut : ℕ} {base : ℕ → Option Byte} {size : ℕ} {pre : IntervalMap BufferUpdate}

/-- The layout after one more update.  The update covers `[off, stop)`; zeros are
put from `start` to it and behind it up to `stop'`. -/
theorem layout_concat (hwf : WF splitMerger 0 (pre ++ [e])) (hcut : cut ≤ size)
    (hstops : ∀ y ∈ pre, y.stop ≤ size) (x : ℕ) :
    layout sinfo after cut (max size (if after < e.stop then nextStripe sinfo e.stop else e.stop))
        (pre ++ [e]) base x = if min e.off size ≤ x ∧
          x < (if after < e.stop then nextStripe sinfo e.stop else e.stop) then
        some (if e.off ≤ x ∧ x < e.stop then e.val.byte (x - e.off) else 0)
      else layout sinfo after cut size pre base x := by
  have hstop := e.stop_eq
  have hbefore : ∀ y ∈ pre, y.stop ≤ e.off := fun y hy =>
    (pairwise_append.1 hwf.apart).2.2 y hy e (mem_singleton_self e)
  have hnone : e.off ≤ x → get byte pre x = none := fun hx =>
    get_eq_none_of_stop_le _ _ _ fun y hy => (hbefore y hy).trans hx
  have hnext := sinfo.le_next e.stop
  obtain ⟨stop', hstop'⟩ : ∃ stop', stop' = if after < e.stop then
    nextStripe sinfo e.stop else e.stop := ⟨_, rfl⟩
  have hge : e.stop ≤ stop' := by
    rw [hstop']
    split <;> omega
  have hpad : Padded sinfo after (pre ++ [e]) x ↔
      Padded sinfo after pre x ∨ (e.stop ≤ x ∧ x < stop') := by
    rw [Padded, exists_mem_concat, hstop']
    refine or_congr_right ?_
    by_cases hlt : after < e.stop
    · rw [if_pos hlt]
      simp only [hlt, true_and]
    · rw [if_neg hlt]
      omega
  rw [← hstop', layout, get_append, get_singleton]
  by_cases hin : e.off ≤ x ∧ x < e.stop
  · -- in the update
    have hfill : min e.off size ≤ x ∧ x < stop' := by omega
    rw [hnone hin.1, if_pos (show e.Covers x from hin), if_pos hfill, if_pos hin]
    rfl
  have hcov : ¬ e.Covers x := hin
  rw [if_neg hcov, or_none, layout]
  by_cases hfill : min e.off size ≤ x ∧ x < stop'
  · -- in the zeros in front of it or behind it
    have hnone' : get byte pre x = none := by
      rcases le_or_gt e.off x with h | h
      · exact hnone h
      · exact get_eq_none_of_stop_le _ _ _ fun y hy => (hstops y hy).trans (by omega)
    rw [if_pos hfill, if_neg hin, hnone']
    refine if_pos ?_
    rcases lt_or_ge x e.off with h | h
    · exact .inr ⟨by omega, by omega⟩
    · exact .inl (hpad.2 (.inr ⟨by omega, hfill.2⟩))
  · -- elsewhere nothing changes
    have h1 : ¬ (e.stop ≤ x ∧ x < stop') := by omega
    have h2 : (cut ≤ x ∧ x < max size stop') ↔ (cut ≤ x ∧ x < size) := by omega
    rw [if_neg hfill]
    simp only [hpad, h1, or_false, h2]

variable {a : Assembly}

/-- One turn of the loop over the updates. -/
theorem addUpdate_inv (h : LayoutInv sinfo after cut base pre a)
    (hwf : WF splitMerger 0 (pre ++ [e])) (hdata : e.val.IsData) :
    ∃ a', addUpdate sinfo a e = some a' ∧ LayoutInv sinfo after cut base (pre ++ [e]) a' := by
  obtain ⟨hafter, hafle, hal, hcut, hstops, hleast, hawf, hbytes⟩ := h
  obtain ⟨hpos, hlen⟩ := hwf.sized e (by simp)
  obtain ⟨bl, flags, hbl, hbllen, hblbyte⟩ := updateData_spec hdata hlen
  have hstop := e.stop_eq
  obtain ⟨tail, htail⟩ : ∃ tail, tail =
    if ¬ StripeAligned sinfo e.stop ∧ e.stop > after then
      nextStripe sinfo e.stop - e.stop else 0 := ⟨_, rfl⟩
  have hend := tail_eq sinfo after e.stop
  rw [← htail] at hend
  obtain ⟨start, hstart⟩ : ∃ start, start = min e.off a.newSize := ⟨_, rfl⟩
  obtain ⟨m, hm, hmwf, hmget⟩ := insert_spec blSplitMerge_lawful blSplitMerge_runs hawf start
    (a := zeros (e.off - start) ++ bl ++ zeros tail)
    (show 0 < e.len + (e.off - start) + tail by omega) (by
      simp only [blSplitMerge, List.length_append, length_zeros]
      omega)
  have hsize : StripeAligned sinfo (max a.newSize (e.stop + tail)) := by
    rw [hend]
    by_cases hlt : after < e.stop
    · rw [if_pos hlt]
      exact aligned_max hal (sinfo.next_aligned _)
    · rwa [if_neg hlt, max_eq_left (by omega)]
  refine ⟨⟨m, max a.newSize (e.stop + tail), a.appendAfter, a.fadviseFlags ||| flags⟩, ?_, ?_⟩
  · rw [addUpdate, hbl]
    simp only [bind_eq_bind, bind_some]
    rw [← bind_eq_bind, assert_bind hpos, assert_bind (fun h => by omega), ← hstart,
      hafter, ← htail, hm]
    rfl
  · constructor
    · exact hafter
    · exact hafle
    · exact hsize
    · exact hcut.trans (le_max_left _ _)
    · intro y hy
      rcases mem_append.1 hy with hy | hy
      · exact (hstops y hy).trans (le_max_left _ _)
      · rw [mem_singleton.1 hy]
        exact (Nat.le_add_right _ _).trans (le_max_right _ _)
    · intro n hn hc hle
      have he := hle e (by simp)
      refine max_le (hleast n hn hc fun y hy => hle y (mem_append_left _ hy)) ?_
      rw [hend]
      split
      · exact (next_le_iff hn).2 he
      · exact he
    · exact hmwf
    · intro x
      rw [hmget x, hend, layout_concat hwf hcut hstops x, ← hstart, ← hend, ← hbytes x]
      by_cases hx : start ≤ x ∧ x < e.stop + tail
      · rw [if_pos hx, if_pos (by omega)]
        have hfill := getD_filled (e.stop + tail) (show bl.length = e.stop - e.off by omega)
          (show start ≤ e.off by omega) (show e.off ≤ e.stop by omega) hx.1
        rw [Nat.add_sub_cancel_left] at hfill
        rw [byteOf, hfill]
        simp only [hblbyte]
      · rw [if_neg hx, if_neg (by omega)]

/-! ## Truncating down and out -/

/-- What was read, as far as the lowest truncation leaves it: the rest of its
stripe is zeroed. -/
def baseOf (sinfo : StripeInfo) (truncate : Option (ℕ × ℕ)) (size : ℕ) (read : ℕ → Option Byte)
    (x : ℕ) : Option Byte :=
  match truncate with
  | none => read x
  | some (first, _) =>
    if first < size then
      if x < sinfo.logicalToNextStripeOffset first then if first ≤ x then some 0 else read x
      else none
    else read x

theorem layout_nil (x : ℕ) : layout sinfo after cut cut [] base x = base x := by
  have h : ¬ (Padded sinfo after [] x ∨ (cut ≤ x ∧ x < cut)) := by
    simp [Padded]
  simp only [layout, get_nil, if_neg h]

/-- A layout over nothing but `base`. -/
theorem layoutInv_nil (hal : StripeAligned sinfo cut) (hafter : after ≤ cut)
    (hsize : a.newSize = cut) (happ : a.appendAfter = after) (hwf : WF blSplitMerge 1 a.toWrite)
    (hget : ∀ x, get byteOf a.toWrite x = base x) :
    LayoutInv sinfo after cut base [] a where
  appendAfter := happ
  after_le := hafter
  aligned := hsize ▸ hal
  cut_le := hsize.ge
  stop_le := by simp
  least := fun n _ h _ => hsize.le.trans h
  wf := hwf
  bytes := fun x => by rw [hget, hsize, layout_nil]

theorem cutToWrite_spec {read : ExtentMap} (hwf : WF blSplitMerge 1 read)
    (hlimit : ∀ x, Covered read x → x < uint64Max) {first : ℕ}
    (hfirst : nextStripe sinfo first ≤ uint64Max) :
    ∃ a, cutToWrite sinfo first read = some a ∧
      LayoutInv sinfo (prevStripe sinfo first) (nextStripe sinfo first)
        (fun x => if x < nextStripe sinfo first then
          if first ≤ x then some 0 else get byteOf read x else none) [] a := by
  have hle := sinfo.le_next first
  have hprev := (sinfo.prev_le first).trans hle
  -- dropping what is behind the end
  have herase : ∀ m : ExtentMap, WF blSplitMerge 1 m → (∀ x, uint64Max ≤ x → ¬ Covered m x) →
      ∀ x, get byteOf (erase blSplitMerge (nextStripe sinfo first)
        (uint64Max - nextStripe sinfo first) m) x =
        if x < nextStripe sinfo first then get byteOf m x else none := by
    intro m hm hno x
    rw [get_erase blSplitMerge_lawful fun e he => (hm.sized e he).2]
    by_cases hx : x < nextStripe sinfo first
    · rw [if_neg (by omega), if_pos hx]
    · rw [if_neg hx]
      by_cases hmax : x < uint64Max
      · rw [if_pos (by omega)]
      · rw [if_neg (by omega), get_eq_none_iff_not_covered]
        exact hno x (by omega)
  rw [cutToWrite]
  by_cases hne : nextStripe sinfo first ≠ first
  · obtain ⟨m, hm, hmwf, hmget⟩ := insert_spec blSplitMerge_lawful blSplitMerge_runs hwf first
      (show 0 < (zeros (nextStripe sinfo first - first)).length by
        rw [length_zeros]; omega) rfl
    simp only [if_pos hne, hm, bind_eq_bind, bind_some]
    rw [length_zeros, Nat.add_sub_cancel' hle] at hmget
    have hno : ∀ x, uint64Max ≤ x → ¬ Covered m x := by
      intro x hx hc
      rw [← get_isSome_iff byteOf, hmget x, if_neg (by omega), get_isSome_iff] at hc
      have := hlimit x hc
      omega
    refine ⟨_, rfl, layoutInv_nil (sinfo.next_aligned _) hprev rfl rfl
      (WF.erase blSplitMerge_lawful le_rfl hmwf _ _) fun x => ?_⟩
    rw [herase m hmwf hno x, hmget x]
    by_cases hx : x < nextStripe sinfo first
    · rw [if_pos hx, if_pos hx]
      by_cases hf : first ≤ x
      · rw [if_pos ⟨hf, hx⟩, if_pos hf, byteOf, getD_zeros]
      · rw [if_neg fun h => hf h.1, if_neg hf]
    · rw [if_neg hx, if_neg hx]
  · rw [if_neg hne]
    rw [not_not] at hne
    have hno : ∀ x, uint64Max ≤ x → ¬ Covered read x := fun x hx hc => by
      have := hlimit x hc
      omega
    have hal : StripeAligned sinfo first := hne ▸ sinfo.next_aligned first
    refine ⟨_, rfl, layoutInv_nil (sinfo.next_aligned _) hprev rfl ?_
      (WF.erase blSplitMerge_lawful le_rfl hwf _ _) fun x => ?_⟩
    · rw [prev_eq_self hal, hne]
    · rw [herase read hwf hno x]
      by_cases hx : x < nextStripe sinfo first
      · rw [if_pos hx, if_pos hx, if_neg (by omega)]
      · rw [if_neg hx, if_neg hx]

/-- Extending the object to its last size. -/
theorem truncateOut_spec {updates : IntervalMap BufferUpdate}
    (h : LayoutInv sinfo after cut base updates a) (truncate : Option (ℕ × ℕ)) :
    ∃ a', truncateOut sinfo truncate a = some a' ∧ a'.appendAfter = after ∧
      ExtendsTo sinfo truncate a.newSize a'.newSize ∧ WF blSplitMerge 1 a'.toWrite ∧
      ∀ x, get byteOf a'.toWrite x = layout sinfo after cut a'.newSize updates base x := by
  cases truncate with
  | none => exact ⟨a, rfl, h.appendAfter, ExtendsTo.none h.aligned, h.wf, h.bytes⟩
  | some p =>
    obtain ⟨-, second⟩ := p
    rw [truncateOut]
    by_cases hgt : second > a.newSize
    · have hnext := sinfo.le_next second
      have hcut := h.cut_le
      have hafter : second > a.appendAfter := by
        have := h.after_le
        rw [h.appendAfter]
        omega
      obtain ⟨m, hm, hmwf, hmget⟩ := insert_spec blSplitMerge_lawful blSplitMerge_runs h.wf
        a.newSize
        (show 0 < nextStripe sinfo second - a.newSize by omega)
        (length_zeros _)
      rw [if_pos hgt, assert_bind hafter]
      simp only [hm]
      refine ⟨_, rfl, h.appendAfter, ExtendsTo.next hgt, hmwf, fun x => ?_⟩
      -- what is added lies behind all updates
      rw [hmget x, h.bytes x, Nat.add_sub_cancel' (by omega)]
      by_cases hx : a.newSize ≤ x ∧ x < nextStripe sinfo second
      · have hnone : get byte updates x = none :=
          get_eq_none_of_stop_le _ _ _ fun e he => (h.stop_le e he).trans hx.1
        rw [if_pos hx, byteOf, getD_zeros, layout, hnone]
        rw [if_pos (.inr ⟨by omega, hx.2⟩)]
      · have h2 : (cut ≤ x ∧ x < nextStripe sinfo second) ↔
            (cut ≤ x ∧ x < a.newSize) := by omega
        rw [if_neg hx, layout, layout]
        simp only [h2]
    · rw [if_neg hgt]
      exact ⟨a, rfl, h.appendAfter, ExtendsTo.keep h.aligned (by omega), h.wf, h.bytes⟩

variable {op : ObjectOperation}

/-- The loop over the updates, and the extension to the last size. -/
theorem addUpdates_spec {limit : ℕ} (hwf : op.WF limit)
    (h : LayoutInv sinfo after (cutSize sinfo op.truncate size) base [] a) :
    ∃ a₁ a₂, op.bufferUpdates.foldlM (addUpdate sinfo) a = some a₁ ∧
      truncateOut sinfo op.truncate a₁ = some a₂ ∧ a₂.appendAfter = after ∧
      IsFinalSize sinfo op size a₂.newSize ∧ WF blSplitMerge 1 a₂.toWrite ∧
      ∀ x, get byteOf a₂.toWrite x =
        layout sinfo after (cutSize sinfo op.truncate size) a₂.newSize op.bufferUpdates base x := by
  obtain ⟨a₁, hfold, hinv⟩ := Loop.foldlM_invariant
    (LayoutInv sinfo after (cutSize sinfo op.truncate size) base) h (l := op.bufferUpdates)
    fun pre e post acc hl hacc =>
      addUpdate_inv hacc (hl ▸ hwf.updates).upTo (hwf.data e (by simp [hl]))
  obtain ⟨a₂, hout, happ, hext, hawf, hbytes⟩ := truncateOut_spec hinv op.truncate
  refine ⟨a₁, a₂, hfold, hout, happ, hext.isFinalSize hinv.cut_le ?_ ?_, hawf, hbytes⟩
  · rintro x ⟨e, he, -, hlt⟩
    exact hlt.trans_le (hinv.stop_le e he)
  · intro n hn
    exact hinv.least n hn.aligned hn.cut_le fun e he => hwf.updates.stop_le hn.covered_lt he

/-! ## What is written -/

/-- `x` is a byte the plan writes. -/
def WillWrite (sinfo : StripeInfo) (op : ObjectOperation) (size n x : ℕ) : Prop :=
  InCutStripe sinfo op.truncate size x ∨
    (x < cutSize sinfo op.truncate size ∧ Touched sinfo op.bufferUpdates x) ∨
    (cutSize sinfo op.truncate size ≤ x ∧ x < n)

/-- **The layout covers what the plan writes**, if the stripes to read were read. -/
theorem covered_layout {limit : ℕ} (hwf : op.WF limit) {hinfo : HashInfo} {n : ℕ} {plan : WritePlan}
    (hplan : PlanSpec sinfo op hinfo size n plan) {read : ExtentMap}
    (hread : ∀ x, Covered read x ↔ Covered plan.toRead x) (x : ℕ) :
    (layout sinfo (appendPoint sinfo op.truncate size) (cutSize sinfo op.truncate size) n
      op.bufferUpdates (baseOf sinfo op.truncate size (get byteOf read)) x).isSome ↔
      WillWrite sinfo op size n x := by
  obtain ⟨cut, hcut⟩ : ∃ cut, cut = cutSize sinfo op.truncate size := ⟨_, rfl⟩
  rw [← hcut]
  -- the points of the base
  have hbase : (baseOf sinfo op.truncate size (get byteOf read) x).isSome →
      WillWrite sinfo op size n x := by
    intro hb
    have hsub : Covered read x → WillWrite sinfo op size n x := by
      intro hc
      rcases hplan.reads_sub x ((hread x).1 hc) with h | ⟨hxn, h⟩
      · exact .inl h
      · rcases lt_or_ge x (cutSize sinfo op.truncate size) with hx | hx
        · exact .inr (.inl ⟨hx, h⟩)
        · exact .inr (.inr ⟨hx, hxn⟩)
    cases htr : op.truncate with
    | none =>
      rw [htr] at hb
      exact hsub ((get_isSome_iff _ _ _).1 hb)
    | some p =>
      obtain ⟨first, second⟩ := p
      rw [htr, baseOf] at hb
      split_ifs at hb with hlt hx hf
      · refine .inl ?_
        have hal : ¬ StripeAligned sinfo first := fun h => by
          rw [next_eq_self h] at hx
          omega
        rw [htr, inCutStripe_iff hlt hal]
        exact ⟨(sinfo.prev_le first).trans hf, hx⟩
      · exact hsub ((get_isSome_iff _ _ _).1 hb)
      · cases hb
      · exact hsub ((get_isSome_iff _ _ _).1 hb)
  have hkept : x < cut → Covered read x →
      (baseOf sinfo op.truncate size (get byteOf read) x).isSome := by
    intro hx hc
    have hc' := (get_isSome_iff byteOf read x).2 hc
    cases htr : op.truncate with
    | none => exact hc'
    | some p =>
      rw [baseOf]
      split_ifs with hlt hnext
      · rfl
      · exact hc'
      · rw [hcut, htr, cutSize, if_pos hlt] at hx
        exact absurd hx hnext
      · exact hc'
  rw [layout]
  cases hu : get byte op.bufferUpdates x with
  | some b =>
    have hc : Covered op.bufferUpdates x :=
      (get_isSome_iff byte _ _).1 (by rw [hu]; rfl)
    refine iff_of_true rfl ?_
    rcases lt_or_ge x (cutSize sinfo op.truncate size) with hx | hx
    · exact .inr (.inl ⟨hx, x, hc, rfl⟩)
    · exact .inr (.inr ⟨hx, hplan.finalSize.1.covered_lt x hc⟩)
  | none =>
    have hnc : ¬ Covered op.bufferUpdates x := (get_eq_none_iff_not_covered _ _ _).1 hu
    by_cases hfill : Padded sinfo (appendPoint sinfo op.truncate size) op.bufferUpdates x ∨
        (cut ≤ x ∧ x < n)
    · rw [if_pos hfill]
      refine iff_of_true rfl ?_
      rcases hfill with ⟨e, he, -, h1, h2⟩ | hx
      · have hlt := hwf.updates.off_lt_stop he
        have hmeet : Touched sinfo op.bufferUpdates x := (touched_iff hwf.updates x).2
          ⟨e, he, (sinfo.prev_le _).trans (by omega), h2⟩
        have hn := (next_le_iff hplan.finalSize.1.aligned).2
          (hwf.updates.stop_le hplan.finalSize.1.covered_lt he)
        rcases lt_or_ge x (cutSize sinfo op.truncate size) with hx | hx
        · exact .inr (.inl ⟨hx, hmeet⟩)
        · exact .inr (.inr ⟨hx, by omega⟩)
      · exact .inr (.inr (hcut ▸ hx))
    · rw [if_neg hfill]
      refine ⟨hbase, ?_⟩
      rintro (h | ⟨hx, ht⟩ | hx)
      · exact hkept (hcut ▸ h.lt_cutSize) ((hread x).2 (hplan.reads_cut x h))
      · rcases hplan.reads x hx ht with h | h
        · exact absurd h hnc
        · exact hkept (hcut ▸ hx) ((hread x).2 h)
      · exact absurd (.inr (hcut ▸ hx)) hfill

/-- The plan writes whole stripes. -/
theorem WillWrite.saturated {n : ℕ} (hsize : StripeAligned sinfo size)
    (hn : StripeAligned sinfo n) {x y : ℕ}
    (hxy : prevStripe sinfo x = prevStripe sinfo y)
    (h : WillWrite sinfo op size n x) : WillWrite sinfo op size n y := by
  have hcut := cutSize_aligned hsize op.truncate
  have hlt : ∀ a, StripeAligned sinfo a → (x < a ↔ y < a) := fun a ha => by
    rw [← prev_lt_iff ha, hxy, prev_lt_iff ha]
  rcases h with h | ⟨hx, z, hz, hzx⟩ | hx
  · refine .inl ?_
    cases htr : op.truncate with
    | none =>
      rw [htr] at h
      exact absurd h id
    | some p =>
      rw [htr] at h
      exact ⟨h.1, h.2.1, hxy ▸ h.2.2⟩
  · exact .inr (.inl ⟨(hlt _ hcut).1 hx, z, hz, hzx.trans hxy⟩)
  · have h1 := hlt _ hcut
    have h2 := hlt _ hn
    exact .inr (.inr ⟨by omega, by omega⟩)

end Ceph.Osd
