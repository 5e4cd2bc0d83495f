import Ceph.Osd.ECMeta

/-!
# Plan and generator agree

`get_write_plan` decides which stripes are read and announces which ones will be
written; `generate_transactions` then works extent by extent.  The primary asserts
that the generator wrote what was announced.  For operations built by `create`,
`write`, `zero` and `truncate` calls they agree, but for two shapes of truncation on
which the generator fails one of its own assertions (`Generable`).
-/

namespace Ceph.Osd

open IntervalMap StripeInfo List Option ObjectOperation
open StripeInfo renaming logicalToPrevStripeOffset → prevStripe, logicalToNextStripeOffset →
  nextStripe, LogicalOffsetIsStripeAligned → StripeAligned, logicalToPrevChunkOffset → prevChunk

variable {env : GenEnv}

/-! ## Laying out the data -/

variable {sinfo : StripeInfo}

/-- Truncating the shards leaves what lies below. -/
theorem bytesLeft_truncate {cut : ℕ} (hcut : StripeAligned sinfo cut) (oid : Soid) (size : ℕ) :
    bytesLeft sinfo oid [.truncate ⟨oid, none⟩ (prevChunk sinfo cut)] size = min size cut := by
  have hdiv : cut / sinfo.stripeWidth * sinfo.chunkSize / sinfo.chunkSize * sinfo.stripeWidth =
      cut := by
    rw [Nat.mul_div_cancel _ sinfo.chunkSize_pos]
    exact Nat.div_mul_cancel ((sinfo.aligned_iff).1 hcut)
  rw [bytesLeft, foldl_cons, foldl_nil, leftAfter, if_pos rfl, logicalToPrevChunkOffset, hdiv]

/-- `g'` is `g` after the object of `size` bytes was cut at the lowest truncation. -/
structure Gen.Cut (env : GenEnv) (size : ℕ) (g g' : Gen) : Prop where
  op : g'.op = g.op
  entry : g'.entry = g.entry
  hinfo : g'.hinfo = g.hinfo
  written : g'.written = g.written
  saved : g'.rollbackExtents ≠ [] ↔ g.entry.isSome ∧ appendPoint env.sinfo g.op.truncate size < size
  left : ∀ s old, bytesLeft env.sinfo env.oid (g.transactions s) old ≤ size →
    bytesLeft env.sinfo env.oid (g'.transactions s) old =
      min (bytesLeft env.sinfo env.oid (g.transactions s) old)
        (cutSize env.sinfo g.op.truncate size)

variable {g : Gen} {size : ℕ}

theorem saveTruncated_spec (first : ℕ) (hfresh : g.op.isFreshObject = false)
    (hal : StripeAligned env.sinfo size) (hroll : g.rollbackExtents = []) :
    ∃ g', saveTruncated env g first size = some g' ∧ g'.op = g.op ∧ g'.entry = g.entry ∧
      g'.hinfo = g.hinfo ∧ g'.written = g.written ∧ (g'.rollbackExtents ≠ [] ↔ g.entry.isSome) ∧
      ∀ s size, bytesLeft env.sinfo env.oid (g'.transactions s) size =
        bytesLeft env.sinfo env.oid (g.transactions s) size := by
  rw [saveTruncated]
  cases he : g.entry with
  | none => exact ⟨g, rfl, rfl, he, rfl, rfl, by simp [hroll], fun _ _ => rfl⟩
  | some e =>
    have hlen := alignedToChunk_of_aligned (aligned_sub hal (env.sinfo.prev_aligned first))
    simp only [hfresh, Bool.false_eq_true, not_false_eq_true, if_true, hlen, bind_eq_bind,
      bind_some]
    rw [← bind_eq_bind, assert_bind hroll]
    refine ⟨_, rfl, rfl, rfl, rfl, rfl, by simp [Gen.emit], fun s size => ?_⟩
    rw [Gen.emit, bytesLeft_append]
    rfl

variable {read : ExtentMap}

/-- Cutting the object at the lowest truncation. -/
theorem truncateDown_spec (hsize : g.hinfo.getTotalLogicalSize env.sinfo = size)
    (hal : StripeAligned env.sinfo size) (hmax : size ≤ uint64Max)
    (hfresh : 0 < size → g.op.isFreshObject = false) (hroll : g.rollbackExtents = [])
    (hread : WF blSplitMerge 1 read) (hlimit : ∀ x, Covered read x → x < uint64Max) :
    ∃ g' a, truncateDown env g read = some (g', a) ∧ g.Cut env size g' ∧
      LayoutInv env.sinfo (appendPoint env.sinfo g.op.truncate size)
        (cutSize env.sinfo g.op.truncate size)
        (baseOf env.sinfo g.op.truncate size (get byteOf read)) [] a := by
  -- nothing is cut off
  have hkeep : appendPoint env.sinfo g.op.truncate size = size →
      cutSize env.sinfo g.op.truncate size = size →
      (∀ x, get byteOf read x = baseOf env.sinfo g.op.truncate size (get byteOf read) x) →
      g.Cut env size g ∧ LayoutInv env.sinfo (appendPoint env.sinfo g.op.truncate size)
        (cutSize env.sinfo g.op.truncate size)
        (baseOf env.sinfo g.op.truncate size (get byteOf read)) [] ⟨read, size, size, 0⟩ := by
    intro happ hcut hbase
    rw [happ, hcut]
    refine ⟨⟨rfl, rfl, rfl, rfl, ?_, fun s old hle => ?_⟩,
      layoutInv_nil hal le_rfl rfl rfl hread hbase⟩
    · rw [happ]
      simp [hroll]
    · rw [hcut, min_eq_left hle]
  rw [truncateDown, hsize]
  cases htr : g.op.truncate with
  | none =>
    rw [htr] at hkeep
    exact ⟨g, _, rfl, hkeep rfl rfl fun x => rfl⟩
  | some p =>
    obtain ⟨first, second⟩ := p
    rw [htr] at hkeep
    simp only
    by_cases hlt : first < size
    · have hnext : nextStripe env.sinfo first ≤ size := (next_le_iff hal).2 hlt.le
      have hf := hfresh (by omega)
      obtain ⟨a, ha, hinv⟩ := cutToWrite_spec hread hlimit (hnext.trans hmax)
      obtain ⟨g', hg', hop, hentry, hhinfo, hwritten, hsaved, hleft⟩ :=
        saveTruncated_spec first hf hal hroll
      have happ : appendPoint env.sinfo (some (first, second)) size =
          prevStripe env.sinfo first := if_pos hlt
      have hcut : cutSize env.sinfo (some (first, second)) size =
          nextStripe env.sinfo first := if_pos hlt
      have hnew : a.newSize = nextStripe env.sinfo first :=
        le_antisymm (hinv.least _ (env.sinfo.next_aligned _) le_rfl (by simp)) hinv.cut_le
      have hprev := env.sinfo.prev_le first
      refine ⟨g'.emit fun _ => [.truncate ⟨env.oid, none⟩
        (prevChunk env.sinfo (nextStripe env.sinfo first))], a, ?_,
        ⟨hop, hentry, hhinfo, hwritten, ?_, fun s old _ => ?_⟩, ?_⟩
      · rw [if_pos hlt, assert_bind (by simp [hf]), ha, bind_eq_bind, bind_some, hg',
          hnew, alignedToChunk_of_aligned (env.sinfo.next_aligned first)]
        rfl
      · rw [htr, happ]
        have : prevStripe env.sinfo first < size := by omega
        simp only [this, and_true]
        exact hsaved
      · rw [htr, hcut, Gen.emit, bytesLeft_append, hleft,
          bytesLeft_truncate (env.sinfo.next_aligned first)]
      · rw [happ, hcut]
        have hbase : baseOf env.sinfo (some (first, second)) size (get byteOf read) = fun x =>
            if x < nextStripe env.sinfo first then
              if first ≤ x then some 0 else get byteOf read x else none :=
          funext fun x => if_pos hlt
        rwa [hbase]
    · rw [if_neg hlt]
      exact ⟨g, _, rfl, hkeep (if_neg hlt) (if_neg hlt) fun x => (if_neg hlt).symm⟩

variable {n : ℕ}

/-- Behind the append point everything up to the end is written. -/
theorem WillWrite.iff_of_appendPoint_le {op : ObjectOperation} {x : ℕ}
    (hcut : cutSize sinfo op.truncate size ≤ n) (hx : appendPoint sinfo op.truncate size ≤ x) :
    WillWrite sinfo op size n x ↔ x < n := by
  constructor
  · rintro (h | ⟨h, -⟩ | h)
    · exact h.lt_cutSize.trans_le hcut
    · exact h.trans_le hcut
    · exact h.2
  · intro hn
    by_cases hc : cutSize sinfo op.truncate size ≤ x
    · exact .inr (.inr ⟨hc, hn⟩)
    refine .inl ?_
    cases htr : op.truncate with
    | none =>
      rw [htr] at hx hc
      exact absurd hx hc
    | some p =>
      obtain ⟨first, second⟩ := p
      rw [htr, appendPoint] at hx
      rw [htr, cutSize] at hc
      by_cases hlt : first < size
      · rw [if_pos hlt] at hx hc
        have hal : ¬ StripeAligned sinfo first := fun h => by
          rw [prev_eq_self h] at hx
          rw [next_eq_self h] at hc
          exact hc hx
        exact (inCutStripe_iff hlt hal).2 ⟨hx, by omega⟩
      · rw [if_neg hlt] at hx hc
        exact absurd hx hc

theorem appendPoint_aligned (h : StripeAligned sinfo size) (truncate : Option (ℕ × ℕ)) :
    StripeAligned sinfo (appendPoint sinfo truncate size) := by
  cases truncate with
  | none => exact h
  | some p =>
    rw [appendPoint]
    split
    · exact sinfo.prev_aligned _
    · exact h

theorem appendPoint_le (sinfo : StripeInfo) (truncate : Option (ℕ × ℕ)) (size : ℕ) :
    appendPoint sinfo truncate size ≤ size := by
  cases truncate with
  | none => exact le_rfl
  | some p =>
    have := sinfo.prev_le p.1
    rw [appendPoint]
    split <;> omega

theorem appendPoint_le_cutSize (sinfo : StripeInfo) (truncate : Option (ℕ × ℕ)) (size : ℕ) :
    appendPoint sinfo truncate size ≤ cutSize sinfo truncate size := by
  cases truncate with
  | none => exact le_rfl
  | some p =>
    have := (sinfo.prev_le p.1).trans (sinfo.le_next p.1)
    rw [appendPoint, cutSize]
    split <;> omega

/-- The bytes handed to the writing loops. -/
theorem assemble_spec {limit : ℕ} (hwf : g.op.WF limit) {hinfo : HashInfo} {plan : WritePlan}
    (hplan : PlanSpec env.sinfo g.op hinfo size n plan)
    (hsize : g.hinfo.getTotalLogicalSize env.sinfo = size)
    (hal : StripeAligned env.sinfo size) (hmax : size < uint64Max)
    (hn : n ≤ uint64Max) (hfresh : 0 < size → g.op.isFreshObject = false)
    (hroll : g.rollbackExtents = []) (hread : WF blSplitMerge 1 read)
    (hcov : ∀ x, Covered read x ↔ Covered plan.toRead x) :
    ∃ g' a, assemble env read g = some (g', a) ∧ g.Cut env size g' ∧ a.newSize = n ∧
      a.appendAfter = appendPoint env.sinfo g.op.truncate size ∧ a.Whole env size n ∧
      ∀ x, get byteOf a.toWrite x = layout env.sinfo (appendPoint env.sinfo g.op.truncate size)
        (cutSize env.sinfo g.op.truncate size) n g.op.bufferUpdates
        (baseOf env.sinfo g.op.truncate size (get byteOf read)) x := by
  have hcutn := hplan.finalSize.1.cut_le
  have hlimit : ∀ x, Covered read x → x < uint64Max := by
    intro x hx
    rcases hplan.reads_sub x ((hcov x).1 hx) with h | ⟨h, -⟩
    · exact h.lt_cutSize.trans_le (hcutn.trans hn)
    · exact h.trans_le hn
  obtain ⟨g', a₀, hdown, hcut, hinv⟩ :=
    truncateDown_spec hsize hal hmax.le hfresh hroll hread hlimit
  obtain ⟨a₁, a, hfold, hout, happ, hfinal, hawf, hbytes⟩ := addUpdates_spec hwf hinv
  have hnew : a.newSize = n := hfinal.unique hplan.finalSize
  rw [hnew] at hbytes
  have hcovered : ∀ x, Covered a.toWrite x ↔ WillWrite env.sinfo g.op size n x := by
    intro x
    rw [← get_isSome_iff byteOf, hbytes x]
    exact covered_layout hwf hplan hcov x
  have hle := appendPoint_le env.sinfo g.op.truncate size
  have hnal := hplan.finalSize.1.aligned
  refine ⟨g', a, ?_, hcut, hnew, happ, ?_, hbytes⟩
  · rw [assemble, hdown]
    simp only [bind_eq_bind, bind_some, hcut.op]
    rw [hfold, bind_some, hout, bind_some]
  · constructor
    · exact hawf
    · intro x y hxy hx
      exact (hcovered y).2 (((hcovered x).1 hx).saturated hal hnal hxy)
    · rw [happ]
      exact appendPoint_aligned hal _
    · rwa [happ]
    · omega
    · rw [happ]
      exact (appendPoint_le_cutSize _ _ _).trans hcutn
    · exact hn
    · exact hnal
    · intro x hx
      rw [hcovered x, WillWrite.iff_of_appendPoint_le hcutn (happ ▸ hx)]

/-! ## Recording the size -/

/-- With a log entry, the size is recorded whatever was done to the object. -/
theorem noteExtents_logged (hentry : g.entry.isSome) (hn : StripeAligned env.sinfo n)
    (hroll : g.rollbackExtents ≠ [] → g.Rollable)
    (hsize : g.rollbackExtents = [] → g.hinfo.getTotalLogicalSize env.sinfo = n) :
    ∃ g', noteExtents env n g = some g' ∧ g'.hinfo.getTotalLogicalSize env.sinfo = n ∧
      g'.written = g.written ∧ g'.transactions = g.transactions ∧ g'.op = g.op := by
  obtain ⟨e, he⟩ := isSome_iff_exists.1 hentry
  rw [noteExtents, he]
  by_cases hnil : g.rollbackExtents = []
  · have hnot : ¬ g.rollbackExtents ≠ [] := not_not.2 hnil
    simp only [if_neg hnot]
    exact ⟨g, assert_bind (hsize hnil) _, hsize hnil, rfl, rfl, rfl⟩
  · obtain ⟨h1, h2⟩ := hroll hnil e he
    simp only [if_pos (show g.rollbackExtents ≠ [] from hnil), ObjectModDesc.rollbackExtents,
      alignedToChunk_of_aligned hn]
    rw [assert_bind h1, assert_bind (by simp [h2])]
    exact ⟨_, rfl, logical_of_chunk hn, rfl, rfl, rfl⟩

/-- Without a log entry, the size has to be right already. -/
theorem noteExtents_temp (n : ℕ) (hentry : g.entry = none) :
    noteExtents env n g = if g.hinfo.getTotalLogicalSize env.sinfo = n then some g else none := by
  rw [noteExtents, hentry, assert]
  simp only
  split <;> rfl

theorem setHinfo_keeps (env : GenEnv) (g : Gen) : g.Keeps env (setHinfo env g) := by
  rw [setHinfo]
  split
  · exact Gen.Keeps.refl env g
  · exact (Gen.Keeps.refl env g).emit _ fun _ _ => rfl

theorem noteAppend_keeps (env : GenEnv) (after : ℕ) (toAppend : ExtentMap) (g : Gen) :
    g.Keeps env (noteAppend after toAppend g) := by
  rw [noteAppend]
  split
  · exact Gen.Keeps.refl env g
  · exact (Gen.Keeps.refl env g).modDesc _

/-- `g'` is `g` after all data was written, before the size is recorded. -/
structure Gen.Stored (env : GenEnv) (size n : ℕ) (plan : WritePlan) (read : ExtentMap)
    (g g' : Gen) : Prop where
  entry : g'.entry = g.entry
  wf : WF blSplitMerge 1 g'.written
  covered : ∀ x, Covered g'.written x ↔ Covered plan.willWrite x
  bytes : ∀ x, get byteOf g'.written x = layout env.sinfo (appendPoint env.sinfo g.op.truncate size)
      (cutSize env.sinfo g.op.truncate size) n g.op.bufferUpdates
      (baseOf env.sinfo g.op.truncate size (get byteOf read)) x
  total : g'.hinfo.getTotalLogicalSize env.sinfo =
    if appendPoint env.sinfo g.op.truncate size = size then n else size
  saved : g.entry.isSome → appendPoint env.sinfo g.op.truncate size < size → g'.rollbackExtents ≠ []
  sized : g'.rollbackExtents ≠ [] → 0 < size
  left : ∀ s old, bytesLeft env.sinfo env.oid (g.transactions s) old ≤ size →
    bytesLeft env.sinfo env.oid (g'.transactions s) old =
      min (bytesLeft env.sinfo env.oid (g.transactions s) old)
        (cutSize env.sinfo g.op.truncate size)

/-- The stripes read are those asked for. -/
structure Supplies (toRead : ExtentSet) (read : ExtentMap) : Prop where
  wf : WF blSplitMerge 1 read
  covered : ∀ x, Covered read x ↔ Covered toRead x

/-- The second half of the generator, up to the record of the size. -/
theorem generateData_eq (henv : env.Ready) {op : ObjectOperation}
    {entry : Option (PgLogEntry Soid)} {hinfo hinfo' : HashInfo}
    (hmeta : MetaSpec env op entry hinfo g) {limit : ℕ} (hwf : g.op.WF limit) {plan : WritePlan}
    (hplan : PlanSpec env.sinfo g.op hinfo' size n plan)
    (hsize : g.hinfo.getTotalLogicalSize env.sinfo = size)
    (hal : StripeAligned env.sinfo size) (hmax : size < uint64Max)
    (hn : n ≤ uint64Max) (hread : Supplies plan.toRead read) :
    ∃ g' after toAppend, (assemble env read g >>= fun p => writeOut env p.1 p.2) =
        (noteExtents env n g' >>= fun g => some (setHinfo env (noteAppend after toAppend g))) ∧
      g.Stored env size n plan read g' := by
  obtain ⟨g₁, a, hassemble, hcut, hnew, happ, hwhole, hbytes⟩ := assemble_spec hwf hplan hsize hal
    hmax hn (hsize ▸ hmeta.fresh) hmeta.rollbackExtents hread.wf hread.covered
  obtain ⟨g', toAppend, hwrite, hwrote, hget, htotal, hsized, hsaved⟩ := writeOut_eq henv
    (hcut.written.trans hmeta.written) (by rw [hcut.hinfo, hsize]) (hcut.hinfo ▸ hmeta.fits)
    (hnew.symm ▸ hwhole)
  rw [hnew] at hwrite htotal
  refine ⟨g', a.appendAfter, toAppend, ?_, ⟨hwrote.entry.trans hcut.entry, hwrote.wf, fun x => ?_,
    fun x => ?_, ?_, fun hentry hlt => hsaved (hcut.saved.2 ⟨hentry, hlt⟩), fun h => ?_,
    fun s old hle => ?_⟩⟩
  · rwa [hassemble]
  · rw [← get_isSome_iff byteOf, hget x, hbytes x, covered_layout hwf hplan hread.covered x,
      hplan.willWrite x]
    rfl
  · rw [hget x, hbytes x]
  · rw [htotal, happ]
  · rcases hsized h with h | h
    · have := (hcut.saved.1 h).2
      omega
    · exact h
  · rw [hwrote.left, hcut.left s old hle]

/-! ## Requests -/

/-- An operation built by calls on a transaction is submitted for an object whose
size is a whole number of stripes, and no offset comes near the end of the address
space. -/
structure Request (env : GenEnv) (calls : List Call) (op : ObjectOperation)
    (entry : Option (PgLogEntry Soid)) (obc : Option ObjectContext) (hinfo : HashInfo) :
    Prop where
  ready : env.Ready
  built : build calls = some op
  fits : hinfo.Fits env.ec
  aligned : env.sinfo.LogicalOffsetIsStripeAligned (hinfo.getTotalLogicalSize env.sinfo)
  projected : hinfo.projectedTotalChunkSize = hinfo.totalChunkSize
  /-- Only an object that does not exist is created. -/
  fresh : op.isFreshObject → hinfo.totalChunkSize = 0
  context : entry.isSome → obc.isSome
  temp : entry.isNone → env.oid.isTemp
  records : ∀ e, entry = some e → e.modDesc = {}
  size_fits : hinfo.getTotalLogicalSize env.sinfo + env.sinfo.stripeWidth ≤ uint64Max
  calls_fit : ∀ c ∈ calls, c.reach + env.sinfo.stripeWidth ≤ uint64Max

/-- The operations that pass the assertions of the generator: an existing object
truncated to zero stays at zero and is logged, and a temporary object that is cut
gets its size back. -/
def Generable (sinfo : StripeInfo) (op : ObjectOperation) (logged : Bool) (size : ℕ) : Prop :=
  (op.recreates → op.truncate = some (0, 0) ∧ logged) ∧
    (logged = false → ∀ first second, op.truncate = some (first, second) → first < size →
      IsFinalSize sinfo op size size)

/-- What the generator computes. -/
structure Outcome (env : GenEnv) (op : ObjectOperation) (size n : ℕ) (plan : WritePlan)
    (read : ExtentMap) (out : Gen) : Prop where
  wf : WF blSplitMerge 1 out.written
  covered : ∀ x, Covered out.written x ↔ Covered plan.willWrite x
  bytes : ∀ x, get byteOf out.written x =
    layout env.sinfo (appendPoint env.sinfo op.restTruncate (op.restSize size))
      (cutSize env.sinfo op.restTruncate (op.restSize size)) n op.bufferUpdates
      (baseOf env.sinfo op.restTruncate (op.restSize size) (get byteOf read)) x
  total : out.hinfo.getTotalLogicalSize env.sinfo = n
  left : ∀ s, bytesLeft env.sinfo env.oid (out.transactions s) size =
    cutSize env.sinfo op.restTruncate (op.restSize size)

section

variable {op op' : ObjectOperation} {hinfo : HashInfo} {plan : WritePlan}
  (h : PlanSpec sinfo op hinfo size n plan)

include h

/-- The plan depends on the operation only through its truncation and its updates. -/
theorem PlanSpec.of_iff {size' : ℕ} (hupd : op'.bufferUpdates = op.bufferUpdates)
    (hcut : cutSize sinfo op'.truncate size' = cutSize sinfo op.truncate size)
    (hin : ∀ x, InCutStripe sinfo op'.truncate size' x ↔ InCutStripe sinfo op.truncate size x)
    (hlast : ∀ m, (∀ first second, op'.truncate = some (first, second) → second ≤ m) ↔
      ∀ first second, op.truncate = some (first, second) → second ≤ m) :
    PlanSpec sinfo op' hinfo size' n plan := by
  have henc : ∀ m, Encloses sinfo op' size' m ↔ Encloses sinfo op size m := fun m =>
    ⟨fun hm => ⟨hm.aligned, hcut ▸ hm.cut_le, hupd ▸ hm.covered_lt, (hlast m).1 hm.truncate_le⟩,
      fun hm => ⟨hm.aligned, hcut.symm ▸ hm.cut_le, hupd.symm ▸ hm.covered_lt,
        (hlast m).2 hm.truncate_le⟩⟩
  constructor
  · exact ⟨(henc n).2 h.finalSize.1, fun m hm => h.finalSize.2 ((henc m).1 hm)⟩
  · exact h.hinfo
  · exact h.willWrite_wf
  · simpa only [hupd, hcut, hin] using h.willWrite
  · exact h.toRead_wf
  · simpa only [hin] using h.reads_cut
  · simpa only [hupd, hin] using h.reads_sub
  · simpa only [hupd, hcut] using h.reads

/-- Truncating to zero leaves what the plan found to a new object. -/
theorem PlanSpec.recreated (htr : op.truncate = some (0, 0))
    (hupd : op'.bufferUpdates = op.bufferUpdates) (htr' : op'.truncate = none) :
    PlanSpec sinfo op' hinfo 0 n plan := by
  refine h.of_iff hupd ?_ (fun x => ?_) fun m => ?_ <;> rw [htr, htr']
  · rw [cutSize, cutSize, next_eq_self (aligned_zero sinfo)]
    split <;> omega
  · exact iff_of_false id (not_inCutStripe_of_aligned (aligned_zero sinfo))
  · simp

theorem PlanSpec.total :
    plan.hinfo.getTotalLogicalSize sinfo = hinfo.getTotalLogicalSize sinfo := by
  rw [h.hinfo]
  rfl

end

theorem ObjectOperation.restSize_aligned (op : ObjectOperation) (h : StripeAligned sinfo size) :
    StripeAligned sinfo (op.restSize size) := by
  rw [restSize]
  split
  · exact aligned_zero sinfo
  · exact h

section Request

variable {calls : List Call} {op : ObjectOperation} {entry : Option (PgLogEntry Soid)}
  {obc : Option ObjectContext} {hinfo : HashInfo}

namespace Request

section

variable (h : Request env calls op entry obc hinfo)

include h

theorem folded (old : Buffer) :
    Folded (uint64Max - env.sinfo.stripeWidth) old op (contentAfter calls old) := by
  refine build_folded (Nat.sub_le _ _) (fun c hc => ?_) h.built old
  have := h.calls_fit c hc
  omega

theorem fresh_size (hf : op.isFreshObject) : hinfo.getTotalLogicalSize env.sinfo = 0 := by
  rw [HashInfo.getTotalLogicalSize, h.fresh hf, Nat.zero_mul]

/-- The plan is made. -/
theorem plan (getHinfo : Soid → HashInfo) :
    ∃ plan n, getWritePlan env.sinfo op hinfo getHinfo = some plan ∧
      PlanSpec env.sinfo op hinfo (hinfo.getTotalLogicalSize env.sinfo) n plan := by
  have hsize : hinfo.getProjectedTotalLogicalSize env.sinfo =
      hinfo.getTotalLogicalSize env.sinfo := by
    rw [HashInfo.getProjectedTotalLogicalSize, h.projected, HashInfo.getTotalLogicalSize]
  have := getWritePlan_spec (h.folded []).plain (h.folded []).wf getHinfo (hsize ▸ h.aligned)
  rwa [hsize] at this

/-- The object still ends within the address space. -/
theorem finalSize_le (hn : IsFinalSize env.sinfo op (hinfo.getTotalLogicalSize env.sinfo) n) :
    n ≤ uint64Max := by
  obtain ⟨limit, hlimit⟩ : ∃ limit, limit = uint64Max - env.sinfo.stripeWidth := ⟨_, rfl⟩
  have hwf := (h.folded []).wf
  have hfits := h.size_fits
  have hnext := env.sinfo.le_next limit
  have hlt := env.sinfo.next_lt_add limit
  refine (hn.2 (?_ : Encloses env.sinfo op _ (nextStripe env.sinfo limit))).trans (by omega)
  constructor
  · exact env.sinfo.next_aligned _
  · exact (cutSize_le h.aligned _).trans (by omega)
  · intro x hx
    have := hwf.covered x hx
    omega
  · intro first second hs
    have := (hwf.truncated first second hs).2
    omega

end

end Request

theorem generateTransactions_eq (hinfo : HashInfo) (read : ExtentMap)
    (h : generateMeta env op entry obc hinfo = some g) :
    generateTransactions env op entry obc hinfo read =
      (assemble env read g >>= fun p => writeOut env p.1 p.2) := by
  rw [generateTransactions, h]
  rfl

/-- The two halves of the generator, up to the record of the size. -/
theorem generate_eq (h : Request env calls op entry obc hinfo) {plan : WritePlan}
    (hplan : PlanSpec env.sinfo op hinfo (hinfo.getTotalLogicalSize env.sinfo) n plan)
    (hrec : op.recreates → op.truncate = some (0, 0) ∧ entry.isSome)
    (hread : Supplies plan.toRead read) :
    ∃ g g' after toAppend, MetaSpec env op entry plan.hinfo g ∧
      generateTransactions env op entry obc plan.hinfo read =
        (noteExtents env n g' >>= fun g => some (setHinfo env (noteAppend after toAppend g))) ∧
      g.Stored env (op.restSize (hinfo.getTotalLogicalSize env.sinfo)) n plan read g' := by
  have hfolded := h.folded []
  have hfits : plan.hinfo.Fits env.ec := by
    rw [hplan.hinfo]
    exact h.fits
  suffices hfirst : ∃ g, generateMeta env op entry obc plan.hinfo = some g ∧
      MetaSpec env op entry plan.hinfo g ∧
      PlanSpec env.sinfo g.op hinfo (op.restSize (hinfo.getTotalLogicalSize env.sinfo)) n plan ∧
      ∀ first second, g.op.truncate = some (first, second) →
        first ≤ second ∧ second ≤ uint64Max - env.sinfo.stripeWidth by
    obtain ⟨g, hrun, hmeta, hplan', htrunc⟩ := hfirst
    have hle : op.restSize (hinfo.getTotalLogicalSize env.sinfo) < uint64Max := by
      have := h.size_fits
      have := env.sinfo.stripeWidth_pos
      rw [restSize]
      split <;> omega
    obtain ⟨g', after, toAppend, heq, hstored⟩ := generateData_eq h.ready hmeta
      ⟨hmeta.updates ▸ hfolded.wf.updates, hmeta.updates ▸ hfolded.wf.data,
        hmeta.updates ▸ hfolded.wf.covered, htrunc⟩ hplan' (hplan.total ▸ hmeta.size)
      (op.restSize_aligned h.aligned) hle (h.finalSize_le hplan.finalSize) hread
    exact ⟨g, g', after, toAppend, hmeta, (generateTransactions_eq _ _ hrun).trans heq, hstored⟩
  cases hr : op.recreates with
  | true =>
    obtain ⟨htr, hentry⟩ := hrec hr
    obtain ⟨g, hrun, hmeta⟩ := generateMeta_recreate hfolded.plain (Bool.and_eq_true_iff.1 hr).1 htr
      hentry (h.context hentry) hfits
    have htr' := hmeta.truncate
    rw [restTruncate, hr] at htr'
    refine ⟨g, hrun, hmeta, ?_, by simp [htr']⟩
    rw [restSize, hr]
    exact hplan.recreated htr hmeta.updates htr'
  | false =>
    obtain ⟨g, hrun, hmeta⟩ := generateMeta_keep hfolded.plain hr h.context h.temp hfits h.records
      (fun hf => hplan.total.trans (h.fresh_size hf))
    have htr' := hmeta.truncate
    rw [restTruncate, hr] at htr'
    refine ⟨g, hrun, hmeta, ?_, htr' ▸ hfolded.wf.truncated⟩
    rw [restSize, hr]
    exact hplan.of_iff hmeta.updates (by rw [htr']; rfl) (fun _ => by rw [htr']; rfl)
      fun _ => by rw [htr']; rfl

/-- The generator fails on a truncation to zero that it cannot turn into a removal. -/
theorem generateMeta_eq_none (hsnaps : op.updatedSnaps = none) (hrec : op.recreates)
    (hnot : ¬ (op.truncate = some (0, 0) ∧ entry.isSome)) :
    generateMeta env op entry obc hinfo = none := by
  obtain ⟨hnone, hfirst⟩ := Bool.and_eq_true_iff.1 hrec
  obtain ⟨⟨first, second⟩, htr, hzero⟩ := of_map (of_decide_eq_true hfirst)
  obtain rfl : first = 0 := hzero
  obtain ⟨g₀, hg₀, hk₀, hentry₀, -⟩ := noteTemp_keeps env
    { op := op, entry := entry, obc := obc, hinfo := hinfo }
  have hop₀ : g₀.op = op := hk₀.op
  by_contra hsome
  obtain ⟨g, hg⟩ := ne_none_iff_exists'.1 hsome
  obtain ⟨-, hg⟩ := of_assert hg
  obtain ⟨-, hg⟩ := of_assert hg
  rw [hg₀, noteSnaps_eq (hop₀ ▸ hsnaps)] at hg
  obtain ⟨g₁, hg₁, -⟩ := of_bind hg
  rw [truncateToZero] at hg₁
  simp only [hop₀, htr, if_pos hnone] at hg₁
  obtain ⟨hsecond, hg₁⟩ := of_assert hg₁
  obtain ⟨hentry, -⟩ := of_assert hg₁
  exact hnot ⟨by rw [htr, ← hsecond], (congrArg Option.isSome hentry₀).symm.trans hentry⟩

section

variable {plan : WritePlan} (h : Request env calls op entry obc hinfo)
  (hplan : PlanSpec env.sinfo op hinfo (hinfo.getTotalLogicalSize env.sinfo) n plan)

include h hplan

/-- The generator passes its assertions. -/
theorem generate_of_generable
    (hgen : Generable env.sinfo op entry.isSome (hinfo.getTotalLogicalSize env.sinfo))
    (hread : Supplies plan.toRead read) :
    ∃ out, generateTransactions env op entry obc plan.hinfo read = some out ∧
      Outcome env op (hinfo.getTotalLogicalSize env.sinfo) n plan read out := by
  obtain ⟨g, g', after, toAppend, hmeta, heq, hstored⟩ := generate_eq h hplan hgen.1 hread
  have hgsize := hmeta.size
  rw [hplan.total] at hgsize
  obtain ⟨g'', hnote, htotal, hwritten, htrans⟩ : ∃ g'', noteExtents env n g' = some g'' ∧
      g''.hinfo.getTotalLogicalSize env.sinfo = n ∧ g''.written = g'.written ∧
      g''.transactions = g'.transactions := by
    cases hentry : entry.isSome with
    | true =>
      have hge : g'.entry.isSome := by rw [hstored.entry, hmeta.entry, hentry]
      obtain ⟨g'', h1, h2, h3, h4, -⟩ := noteExtents_logged hge hplan.finalSize.1.aligned
        (fun hroll e he => hmeta.rollable (hgsize ▸ hstored.sized hroll) e (hstored.entry ▸ he))
        (fun hnil => by
          have hap := appendPoint_le env.sinfo g.op.truncate
            (op.restSize (hinfo.getTotalLogicalSize env.sinfo))
          rcases hap.eq_or_lt with hap | hap
          · rw [hstored.total, if_pos hap]
          · exact absurd hnil (hstored.saved (by rw [hmeta.entry, hentry]) hap))
      exact ⟨g'', h1, h2, h3, h4⟩
    | false =>
      have hge : g'.entry = none := by simpa [hstored.entry, hentry] using hmeta.entry
      have hr : op.recreates = false :=
        Bool.eq_false_iff.2 fun hr => Bool.false_ne_true (hentry.symm.trans (hgen.1 hr).2)
      have htotal : g'.hinfo.getTotalLogicalSize env.sinfo = n := by
        rw [hstored.total, hmeta.truncate, restTruncate, restSize, hr]
        simp only [Bool.false_eq_true, if_false]
        split
        · rfl
        next hne =>
          cases htr : op.truncate with
          | none =>
            rw [htr] at hne
            exact absurd rfl hne
          | some p =>
            rw [htr] at hne
            by_cases hlt : p.1 < hinfo.getTotalLogicalSize env.sinfo
            · exact (hgen.2 hentry p.1 p.2 htr hlt).unique hplan.finalSize
            · exact absurd (if_neg hlt) hne
      exact ⟨g', by rw [noteExtents_temp n hge, if_pos htotal], htotal, rfl, rfl⟩
  have hkeep := (noteAppend_keeps env after toAppend g'').trans (setHinfo_keeps env _)
  refine ⟨_, by rw [heq, hnote]; rfl, ⟨?_, fun x => ?_, fun x => ?_, ?_, fun s => ?_⟩⟩
  · rw [hkeep.written, hwritten]
    exact hstored.wf
  · rw [hkeep.written, hwritten]
    exact hstored.covered x
  · rw [hkeep.written, hwritten, hstored.bytes x, hmeta.truncate, hmeta.updates]
  · rw [hkeep.hinfo, htotal]
  · have hleft := hmeta.left s
    rw [hplan.total] at hleft
    have hcut := cutSize_le (op.restSize_aligned h.aligned) g.op.truncate
    rw [hkeep.left, htrans, hstored.left s _ hleft.le, hleft, min_eq_right hcut, hmeta.truncate]

/-- The generator fails one of its assertions. -/
theorem generate_eq_none
    (hgen : ¬ Generable env.sinfo op entry.isSome (hinfo.getTotalLogicalSize env.sinfo))
    (hread : Supplies plan.toRead read) :
    generateTransactions env op entry obc plan.hinfo read = none := by
  by_cases hrec : op.recreates → op.truncate = some (0, 0) ∧ entry.isSome
  · have htemp : ¬ _ := fun h2 => hgen ⟨hrec, h2⟩
    push Not at htemp
    obtain ⟨hentry, first, second, htr, hlt, hfinal⟩ := htemp
    have hr : op.recreates = false :=
      Bool.eq_false_iff.2 fun hr => Bool.false_ne_true (hentry.symm.trans (hrec hr).2)
    obtain ⟨g, g', after, toAppend, hmeta, heq, hstored⟩ := generate_eq h hplan hrec hread
    have hge : g'.entry = none := by simpa [hstored.entry, hentry] using hmeta.entry
    have htotal : g'.hinfo.getTotalLogicalSize env.sinfo ≠ n := by
      have hprev := env.sinfo.prev_le first
      rw [hstored.total, hmeta.truncate, restTruncate, restSize, hr]
      simp only [Bool.false_eq_true, if_false]
      rw [htr, appendPoint, if_pos hlt, if_neg (by omega)]
      intro heq
      exact hfinal (heq ▸ hplan.finalSize)
    rw [heq, noteExtents_temp n hge, if_neg htotal]
    rfl
  · push Not at hrec
    obtain ⟨hr, hnot⟩ := hrec
    rw [generateTransactions, generateMeta_eq_none (h.folded []).plain.updatedSnaps hr
      fun hh => hnot hh.1 hh.2]
    rfl

end

/-- The bytes `f` of the stripes to read. -/
theorem exists_supplies {toRead : ExtentSet} (h : WF IntervalSet.lengths 1 toRead) (f : ℕ → Byte) :
    ∃ read, Supplies toRead read ∧ ∀ x, Covered read x → get byteOf read x = some (f x) := by
  obtain ⟨read, hread⟩ : ∃ read, read = toRead.map fun e : Extent ℕ =>
    (⟨e.off, e.len, (range e.len).map fun i => f (e.off + i)⟩ : Extent Buffer) := ⟨_, rfl⟩
  have hmem : ∀ e ∈ read, ∃ e' ∈ toRead, e.off = e'.off ∧ e.len = e'.len ∧
      e.val = (range e.len).map fun i => f (e.off + i) := by
    intro e he
    rw [hread] at he
    obtain ⟨e', he', rfl⟩ := mem_map.1 he
    exact ⟨e', he', rfl, rfl, rfl⟩
  have hwf : WF blSplitMerge 1 read := by
    refine ⟨hread ▸ pairwise_map.2 h.apart, fun e he => ?_⟩
    obtain ⟨e', he', -, hlen, hval⟩ := hmem e he
    refine ⟨hlen ▸ (h.sized e' he').1, ?_⟩
    show e.val.length = e.len
    rw [hval, length_map, length_range]
  refine ⟨read, ⟨hwf, fun x => ⟨?_, ?_⟩⟩, ?_⟩
  · rintro ⟨e, he, h1, h2⟩
    obtain ⟨e', he', hoff, hlen, -⟩ := hmem e he
    exact ⟨e', he', hoff ▸ h1, by rw [Extent.stop, ← hoff, ← hlen]; exact h2⟩
  · rintro ⟨e, he, hc⟩
    exact ⟨_, hread ▸ mem_map_of_mem he, hc⟩
  · rintro x ⟨e, he, h1, h2⟩
    obtain ⟨-, -, -, -, hval⟩ := hmem e he
    have hstop := e.stop_eq
    rw [(hwf.mono (Nat.zero_le 1)).get_of_mem he ⟨h1, h2⟩, byteOf, hval, getD_eq_getElem?_getD,
      getElem?_map, getElem?_range (by omega), map_some, getD_some, Nat.add_sub_cancel' h1]

end Request

theorem halves_request (calls : List Call) {op : ObjectOperation}
    (hbuilt : build calls = some op) (hfresh : op.isFreshObject = false)
    (hfit : ∀ c ∈ calls, c.reach + 4 ≤ uint64Max) :
    Request halvesEnv calls op (some halvesEntry) (some ⟨[]⟩) halvesHinfo where
  ready := halvesEnv_ready
  built := hbuilt
  fits := .inr rfl
  aligned := by decide
  projected := rfl
  fresh := fun h => absurd (hfresh.symm.trans h) Bool.false_ne_true
  context := fun _ => rfl
  temp := fun h => absurd h Bool.false_ne_true
  records := fun e he => by
    cases he
    rfl
  size_fits := by decide
  calls_fit := hfit

end Ceph.Osd
