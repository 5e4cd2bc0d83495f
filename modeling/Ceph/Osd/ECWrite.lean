import Ceph.Osd.ECAssemble

/-!
# Writing out what was laid out

The last part of `generate_transactions`: the extents below the append point are
overwritten, what lies behind it is appended, and the size in the shard hashes is
brought up to date.  The lemmas of this file say that no assertion on the way
fails when whole stripes are written (`writeOut_eq`), and keep track of what is
written and of how much of the old object is left in place (`bytesLeft`).
-/

namespace Ceph.Osd

open IntervalMap StripeInfo List Option Nat
open StripeInfo renaming logicalToPrevStripeOffset → prevStripe, LogicalOffsetIsStripeAligned →
  StripeAligned, logicalToPrevChunkOffset → prevChunk

/-! ## The old bytes left in place -/

/-- How many of the `left` first bytes of an object an operation on its shards
leaves in place, not counting what is written over them. -/
def leftAfter (sinfo : StripeInfo) (oid : Soid) (left : ℕ) : StoreOp → ℕ
  | .truncate o size =>
    if o = ⟨oid, none⟩ then min left (size / sinfo.chunkSize * sinfo.stripeWidth) else left
  | .remove o => if o = ⟨oid, none⟩ then 0 else left
  | .collectionMoveRename o _ => if o = ⟨oid, none⟩ then 0 else left
  | _ => left

/-- How many bytes of an object of `size` bytes a transaction leaves in place. -/
def bytesLeft (sinfo : StripeInfo) (oid : Soid) (ops : List StoreOp) (size : ℕ) : ℕ :=
  ops.foldl (leftAfter sinfo oid) size

theorem bytesLeft_append (sinfo : StripeInfo) (oid : Soid) (ops ops' : List StoreOp) (size : ℕ) :
    bytesLeft sinfo oid (ops ++ ops') size =
      bytesLeft sinfo oid ops' (bytesLeft sinfo oid ops size) :=
  foldl_append

/-- The undo records of the log entry, if there is one, are still open. -/
def Gen.Rollable (g : Gen) : Prop :=
  ∀ e, g.entry = some e →
    e.modDesc.canLocalRollback = true ∧ e.modDesc.rollbackInfoCompleted = false

/-- `g'` differs from `g` only in attributes, records and hints. -/
structure Gen.Keeps (env : GenEnv) (g g' : Gen) : Prop where
  op : g'.op = g.op
  hinfo : g'.hinfo = g.hinfo
  rollbackExtents : g'.rollbackExtents = g.rollbackExtents
  written : g'.written = g.written
  entry : g'.entry.isSome = g.entry.isSome
  left : ∀ s size, bytesLeft env.sinfo env.oid (g'.transactions s) size =
    bytesLeft env.sinfo env.oid (g.transactions s) size

namespace Gen.Keeps

variable {env : GenEnv} {g g' g'' : Gen}

theorem refl (env : GenEnv) (g : Gen) : g.Keeps env g := ⟨rfl, rfl, rfl, rfl, rfl, fun _ _ => rfl⟩

theorem trans (h : g.Keeps env g') (h' : g'.Keeps env g'') : g.Keeps env g'' :=
  ⟨h'.op.trans h.op, h'.hinfo.trans h.hinfo, h'.rollbackExtents.trans h.rollbackExtents,
    h'.written.trans h.written, h'.entry.trans h.entry,
    fun s size => (h'.left s size).trans (h.left s size)⟩

/-- Operations that leave the object in place. -/
theorem emit (h : g.Keeps env g') (ops : ℕ → List StoreOp)
    (hops : ∀ s size, bytesLeft env.sinfo env.oid (ops s) size = size) :
    g.Keeps env (g'.emit ops) :=
  ⟨h.op, h.hinfo, h.rollbackExtents, h.written, h.entry, fun s size => by
    rw [Gen.emit, bytesLeft_append, hops, h.left]⟩

/-- Undo records. -/
theorem modDesc (h : g.Keeps env g') (f : ObjectModDesc → ObjectModDesc) :
    g.Keeps env (g'.modDesc f) :=
  ⟨h.op, h.hinfo, h.rollbackExtents, h.written, by rw [Gen.modDesc, isSome_map, h.entry], h.left⟩

end Gen.Keeps

theorem ObjectModDesc.record_canLocalRollback (d : ObjectModDesc) (op : ModOp) :
    (d.record op).canLocalRollback = d.canLocalRollback := by
  rw [ObjectModDesc.record]
  split <;> rfl

theorem ObjectModDesc.record_rollbackInfoCompleted (d : ObjectModDesc) (op : ModOp) :
    (d.record op).rollbackInfoCompleted = d.rollbackInfoCompleted := by
  rw [ObjectModDesc.record]
  split <;> rfl

/-! ## Sizes in the shard hashes -/

variable {hinfo : HashInfo}

section Sizes

variable {sinfo : StripeInfo}

theorem stripeWidth_div_mul (sinfo : StripeInfo) :
    sinfo.chunkSize * (sinfo.stripeWidth / sinfo.chunkSize) = sinfo.stripeWidth :=
  Nat.mul_div_cancel' sinfo.chunkSize_dvd

/-- The logical size of shards that hold the chunks of `n` bytes. -/
theorem logical_of_chunk {n : ℕ} (hn : StripeAligned sinfo n) :
    prevChunk sinfo n * (sinfo.stripeWidth / sinfo.chunkSize) = n := by
  rw [logicalToPrevChunkOffset, Nat.mul_assoc, stripeWidth_div_mul]
  exact Nat.div_mul_cancel ((sinfo.aligned_iff).1 hn)

/-- A shard length that makes whole stripes is a whole number of chunks. -/
theorem prevChunk_total (hal : StripeAligned sinfo (hinfo.getTotalLogicalSize sinfo)) :
    prevChunk sinfo (hinfo.getTotalLogicalSize sinfo) = hinfo.totalChunkSize := by
  have h := logical_of_chunk hal
  have hpos : 0 < sinfo.stripeWidth / sinfo.chunkSize :=
    div_pos (le_of_dvd sinfo.stripeWidth_pos sinfo.chunkSize_dvd) sinfo.chunkSize_pos
  exact eq_of_mul_eq_mul_right hpos h

theorem prevChunk_add {a b : ℕ} (ha : StripeAligned sinfo a) : prevChunk sinfo (a + b) =
      prevChunk sinfo a + prevChunk sinfo b := by
  simp only [logicalToPrevChunkOffset]
  rw [Nat.add_div_of_dvd_right ((sinfo.aligned_iff).1 ha), Nat.add_mul]

end Sizes

/-! ## One extent -/

/-- The backend the generator runs on: the plugin encodes stripes, and the shards
are among its chunks. -/
structure GenEnv.Ready (env : GenEnv) : Prop where
  encodes : env.ec.EncodesStripes env.sinfo
  chunks : 0 < env.ec.chunkCount
  shards : ∀ s ∈ env.shards, s < env.ec.chunkCount

/-- The hashes are those of the shards, or were dropped. -/
def HashInfo.Fits (hinfo : HashInfo) (ec : ErasureCodeInterface) : Prop :=
  hinfo.cumulativeShardHashes = [] ∨ hinfo.cumulativeShardHashes.length = ec.chunkCount

theorem HashInfo.Fits.clear {ec : ErasureCodeInterface} (h : hinfo.Fits ec) :
    hinfo.clear.Fits ec := by
  rcases h with h | h
  · exact .inl (by rw [HashInfo.clear, h]; rfl)
  · exact .inr (by rw [HashInfo.clear, length_replicate, h])

variable {env : GenEnv}

/-- `g'` is `g` after more writes: hashes, saved extents and what is written apart,
nothing has changed. -/
structure Gen.Wrote (env : GenEnv) (g g' : Gen) : Prop where
  op : g'.op = g.op
  entry : g'.entry = g.entry
  wf : WF blSplitMerge 1 g'.written
  left : ∀ s size, bytesLeft env.sinfo env.oid (g'.transactions s) size =
    bytesLeft env.sinfo env.oid (g.transactions s) size

variable {offset : ℕ}

/-- Appending to the shard hashes. -/
theorem appendHinfo_spec (henv : env.Ready) {len : ℕ}
    {buffers : ChunkMap} (hoff : StripeAligned env.sinfo offset)
    (hlen : StripeAligned env.sinfo len)
    (hbuf : ∀ i < env.ec.chunkCount, ∃ chunk, buffers i = some chunk ∧
      chunk.length = prevChunk env.sinfo len)
    (hh : offset < hinfo.getTotalLogicalSize env.sinfo ∨
      offset = hinfo.getTotalLogicalSize env.sinfo ∧ hinfo.Fits env.ec) :
    ∃ hinfo', appendHinfo env hinfo offset buffers = some hinfo' ∧
      (offset < hinfo.getTotalLogicalSize env.sinfo → hinfo' = hinfo) ∧
      (offset = hinfo.getTotalLogicalSize env.sinfo →
        hinfo'.getTotalLogicalSize env.sinfo = offset + len) := by
  rw [appendHinfo]
  rcases hh with hlt | ⟨heq, hfits⟩
  · exact ⟨hinfo, if_neg (by omega), fun _ => rfl, fun h => absurd h (by omega)⟩
  have htotal : prevChunk env.sinfo offset = hinfo.totalChunkSize := by
    rw [heq]
    exact prevChunk_total (heq ▸ hoff)
  obtain ⟨hashes, happ⟩ := HashInfo.append_spec henv.chunks hfits hbuf
  refine ⟨{ hinfo with
    totalChunkSize := hinfo.totalChunkSize + prevChunk env.sinfo len
    cumulativeShardHashes := hashes }, ?_, fun h => absurd h (by omega), fun _ => ?_⟩
  · rwa [if_pos heq.ge, assert_bind heq, alignedToChunk_of_aligned hoff, htotal]
  · rw [HashInfo.getTotalLogicalSize, ← htotal, ← prevChunk_add hoff, logical_of_chunk]
    rw [aligned_iff] at *
    exact dvd_add hoff hlen

/-- The variables after `encode_and_write`. -/
def encoded (env : GenEnv) (offset : ℕ) (flags : UInt32) (g : Gen) (buffers : ChunkMap)
    (written : ExtentMap) (hinfo : HashInfo) : Gen :=
  { g with written := written, hinfo := hinfo }.emit fun s =>
    (if offset ≥ g.hinfo.getTotalLogicalSize env.sinfo then
      [StoreOp.setAllocHint ⟨env.oid, none⟩ 0 0 (1 ||| 16)] else []) ++
    [StoreOp.write ⟨env.oid, none⟩ (env.sinfo.logicalToPrevChunkOffset offset) (buffers.at s).length
      (buffers.at s) flags]

theorem encodeAndWrite_eq_some {bl : Buffer} {flags : UInt32} {g g' : Gen} :
    encodeAndWrite env offset bl flags g = some g' ↔ StripeAligned env.sinfo offset ∧
      StripeAligned env.sinfo bl.length ∧ bl.length ≠ 0 ∧
      ∃ buffers, encode env.sinfo env.ec bl (Finset.range env.ec.chunkCount) = some (0, buffers) ∧
      ∃ written, IntervalMap.insert blSplitMerge offset bl.length bl g.written = some written ∧
      ∃ hinfo, appendHinfo env g.hinfo offset buffers = some hinfo ∧
        (∀ s ∈ env.shards, (buffers s).isSome) ∧
        encoded env offset flags g buffers written hinfo = g' := by
  simp only [encodeAndWrite, bind_eq_bind, bind_eq_some_iff, assert_eq_some,
    exists_const, Prod.exists, Option.some.injEq]
  refine and_congr_right' (and_congr_right' (and_congr_right' ⟨?_, ?_⟩))
  · rintro ⟨r, buffers, henc, rfl, h⟩
    exact ⟨buffers, henc, h⟩
  · rintro ⟨buffers, henc, h⟩
    exact ⟨0, buffers, henc, rfl, h⟩

/-- `encode_and_write` of whole stripes. -/
theorem encodeAndWrite_spec (henv : env.Ready) {g : Gen} (hwf : WF blSplitMerge 1 g.written)
    {bl : Buffer} (flags : UInt32)
    (hoff : StripeAligned env.sinfo offset)
    (hlen : StripeAligned env.sinfo bl.length) (hpos : 0 < bl.length)
    (hh : offset < g.hinfo.getTotalLogicalSize env.sinfo ∨
      offset = g.hinfo.getTotalLogicalSize env.sinfo ∧ g.hinfo.Fits env.ec) :
    ∃ g', encodeAndWrite env offset bl flags g = some g' ∧ g.Wrote env g' ∧
      g'.rollbackExtents = g.rollbackExtents ∧ (∀ x, get byteOf g'.written x =
        if offset ≤ x ∧ x < offset + bl.length then some (byteOf bl (x - offset))
        else get byteOf g.written x) ∧
      (offset < g.hinfo.getTotalLogicalSize env.sinfo → g'.hinfo = g.hinfo) ∧
      (offset = g.hinfo.getTotalLogicalSize env.sinfo →
        g'.hinfo.getTotalLogicalSize env.sinfo = offset + bl.length) := by
  obtain ⟨buffers, hbuffers, hchunks⟩ := encode_spec henv.encodes hlen hpos
  obtain ⟨written, hins, hwwf, hwget⟩ := insert_spec blSplitMerge_lawful blSplitMerge_runs hwf
    offset hpos rfl
  obtain ⟨hinfo', hhinfo, hkeep, hgrow⟩ := appendHinfo_spec henv hoff hlen hchunks hh
  have hshards : ∀ s ∈ env.shards, (buffers s).isSome := by
    intro s hs
    obtain ⟨chunk, hchunk, -⟩ := hchunks s (henv.shards s hs)
    rw [hchunk]
    rfl
  refine ⟨encoded env offset flags g buffers written hinfo', encodeAndWrite_eq_some.2 ⟨hoff, hlen,
    hpos.ne', buffers, hbuffers, written, hins, hinfo', hhinfo, hshards, rfl⟩,
    ⟨rfl, rfl, hwwf, fun s size => ?_⟩, rfl, hwget, hkeep, hgrow⟩
  rw [encoded, Gen.emit, bytesLeft_append]
  split <;> rfl

theorem saveExtent_spec (g : Gen) {extent : Extent Buffer}
    (hoff : StripeAligned env.sinfo extent.off)
    (hlen : StripeAligned env.sinfo extent.len) :
    ∃ g', saveExtent env g extent = some g' ∧ g'.op = g.op ∧ g'.entry = g.entry ∧
      g'.hinfo = g.hinfo ∧ g'.written = g.written ∧
      (g'.rollbackExtents ≠ [] ↔ g.rollbackExtents ≠ [] ∨ g.entry.isSome) ∧
      ∀ s size, bytesLeft env.sinfo env.oid (g'.transactions s) size =
        bytesLeft env.sinfo env.oid (g.transactions s) size := by
  rw [saveExtent]
  cases he : g.entry with
  | none => exact ⟨g, rfl, rfl, he, rfl, rfl, by simp, fun _ _ => rfl⟩
  | some e =>
    rw [alignedToChunk_of_aligned hoff, alignedToChunk_of_aligned hlen]
    refine ⟨_, rfl, rfl, rfl, rfl, rfl, by simp [Gen.emit], fun s size => ?_⟩
    rw [Gen.emit, bytesLeft_append]
    split <;> rfl

/-! ## The two loops -/

/-- What holds when the extents `pre` have been overwritten. -/
structure Overwrote (env : GenEnv) (g : Gen) (pre : ExtentMap) (g' : Gen) : Prop
    extends g.Wrote env g' where
  hinfo : g'.hinfo = g.hinfo
  bytes : ∀ x, get byteOf g'.written x = get byteOf pre x
  saved : g'.rollbackExtents ≠ [] ↔ g.rollbackExtents ≠ [] ∨ (g.entry.isSome ∧ pre ≠ [])

/-- One turn of the loop over the extents to overwrite. -/
theorem overwriteExtent_inv (henv : env.Ready) {g g₁ : Gen} {pre : ExtentMap} {after : ℕ}
    (flags : UInt32) (h : Overwrote env g pre g₁) {e : Extent Buffer}
    (hwf : WF blSplitMerge 1 (pre ++ [e])) (hafter : e.stop ≤ after)
    (hsize : after ≤ g.hinfo.getTotalLogicalSize env.sinfo)
    (hoff : StripeAligned env.sinfo e.off)
    (hstop : StripeAligned env.sinfo e.stop) :
    ∃ g₂, overwriteExtent env after flags g₁ e = some g₂ ∧ Overwrote env g (pre ++ [e]) g₂ := by
  obtain ⟨hpos, hval⟩ := hwf.sized e (by simp)
  have hstopeq := e.stop_eq
  have hlen : StripeAligned env.sinfo e.len := by
    have := aligned_sub hstop hoff
    rwa [hstopeq, Nat.add_sub_cancel_left] at this
  have hvlen : e.val.length = e.len := hval
  obtain ⟨g', hsave, hop, hentry, hhinfo, hwritten, hsaved, hleft⟩ :=
    saveExtent_spec g₁ hoff hlen
  have hlt : e.off < g'.hinfo.getTotalLogicalSize env.sinfo := by
    rw [hhinfo, h.hinfo]
    omega
  obtain ⟨g₂, hwrite, hwrote, hroll, hbytes, hkeep, -⟩ := encodeAndWrite_spec henv
    (hwritten ▸ h.wf) flags hoff (hvlen.symm ▸ hlen) (hvlen.symm ▸ hpos) (.inl hlt)
  refine ⟨g₂, ?_, ⟨hwrote.op.trans (hop.trans h.op), hwrote.entry.trans (hentry.trans h.entry),
    hwrote.wf, fun s size => (hwrote.left s size).trans ((hleft s size).trans (h.left s size))⟩,
    (hkeep hlt).trans (hhinfo.trans h.hinfo), fun x => ?_, ?_⟩
  · rwa [overwriteExtent, assert_bind hafter, assert_bind hoff, assert_bind hlen, hsave]
  · have hbefore : e.Covers x → get byteOf pre x = none := by
      intro hc
      refine get_eq_none_of_stop_le _ _ _ fun y hy => ?_
      have hap := (pairwise_append.1 hwf.apart).2.2 y hy e (mem_singleton_self e)
      have := hc.1
      omega
    rw [hbytes x, hwritten, h.bytes x, get_append, get_singleton, hvlen]
    by_cases hc : e.Covers x
    · rw [if_pos hc, if_pos (show e.off ≤ x ∧ x < e.off + e.len from hc), hbefore hc, none_or]
    · rw [if_neg hc, if_neg (show ¬ (e.off ≤ x ∧ x < e.off + e.len) from hc), or_none]
  · rw [hroll, hsaved, h.saved, h.entry]
    simp only [ne_eq, append_eq_nil_iff, cons_ne_nil, and_false, not_false_eq_true, and_true]
    tauto

/-- What is handed to the two loops: whole stripes, of which those behind the append
point fill it up to `n`. -/
structure Assembly.Whole (a : Assembly) (env : GenEnv) (size n : ℕ) : Prop where
  wf : WF blSplitMerge 1 a.toWrite
  saturated : ∀ x y, env.sinfo.logicalToPrevStripeOffset x = env.sinfo.logicalToPrevStripeOffset y →
    Covered a.toWrite x → Covered a.toWrite y
  after_aligned : env.sinfo.LogicalOffsetIsStripeAligned a.appendAfter
  after_le : a.appendAfter ≤ size
  after_lt : a.appendAfter < uint64Max
  after_le_end : a.appendAfter ≤ n
  end_le : n ≤ uint64Max
  end_aligned : env.sinfo.LogicalOffsetIsStripeAligned n
  behind : ∀ x, a.appendAfter ≤ x → (Covered a.toWrite x ↔ x < n)

variable {a : Assembly}

/-- The extents below the append point. -/
theorem overwrite_spec (henv : env.Ready) {g : Gen} (hwritten : g.written = []) {n : ℕ}
    (ha : a.Whole env (g.hinfo.getTotalLogicalSize env.sinfo) n) :
    ∃ toOverwrite g', intersect blSplitMerge 0 a.appendAfter a.toWrite = some toOverwrite ∧
      toOverwrite.foldlM (overwriteExtent env a.appendAfter a.fadviseFlags) g = some g' ∧
      Overwrote env g toOverwrite g' ∧ WF blSplitMerge 1 toOverwrite ∧
      ∀ x, get byteOf toOverwrite x =
        if x < a.appendAfter then get byteOf a.toWrite x else none := by
  obtain ⟨m, hm, hmwf, hmget⟩ := intersect_spec blSplitMerge_lawful blSplitMerge_runs
    (ha.wf.mono (zero_le 1)) (show 0 < a.appendAfter ∨ 0 = 0 from .inr rfl)
  have hmget' : ∀ x,
      get byteOf m x = if x < a.appendAfter then get byteOf a.toWrite x else none := by
    intro x
    rw [hmget x]
    simp only [zero_le, true_and, zero_add]
  have hcov : ∀ x, Covered m x ↔ x < a.appendAfter ∧ Covered a.toWrite x := by
    intro x
    rw [← get_isSome_iff byteOf, hmget' x, ← get_isSome_iff byteOf a.toWrite]
    by_cases hx : x < a.appendAfter
    · simp [hx]
    · simp [hx]
  have hsat : ∀ x y, prevStripe env.sinfo x = prevStripe env.sinfo y →
      Covered m x → Covered m y := by
    intro x y hxy hx
    obtain ⟨h1, h2⟩ := (hcov x).1 hx
    refine (hcov y).2 ⟨?_, ha.saturated x y hxy h2⟩
    rwa [← prev_lt_iff ha.after_aligned, ← hxy, prev_lt_iff ha.after_aligned]
  obtain ⟨g', hfold, hinv⟩ := Loop.foldlM_invariant (Overwrote env g) (l := m)
    ⟨⟨rfl, rfl, hwritten ▸ WF.nil 1, fun _ _ => rfl⟩, rfl, fun x => by rw [hwritten], by simp⟩
    (fun pre e post g₁ hl hg₁ => by
      have he : e ∈ m := by simp [hl]
      obtain ⟨h1, h2⟩ := aligned_of_saturated hmwf hsat he
      exact overwriteExtent_inv henv a.fadviseFlags hg₁ (hl ▸ hmwf).upTo
        (hmwf.stop_le (fun x hx => ((hcov x).1 hx).1) he) ha.after_le h1 h2)
  exact ⟨m, g', hm, hfold, hinv, hmwf, hmget'⟩

/-- What lies behind the append point: one extent, or nothing. -/
theorem append_spec (henv : env.Ready) {g : Gen} (hwf : WF blSplitMerge 1 g.written) {size n : ℕ}
    (ha : a.Whole env size n) (hsize : g.hinfo.getTotalLogicalSize env.sinfo = size)
    (hfits : g.hinfo.Fits env.ec) (hlow : ∀ x, a.appendAfter ≤ x → get byteOf g.written x = none) :
    ∃ toAppend g', intersect blSplitMerge a.appendAfter (uint64Max - a.appendAfter) a.toWrite =
        some toAppend ∧
      toAppend.foldlM (appendExtent env a.fadviseFlags) g = some g' ∧ g.Wrote env g' ∧
      g'.rollbackExtents = g.rollbackExtents ∧ (∀ x, get byteOf g'.written x =
        if a.appendAfter ≤ x then get byteOf a.toWrite x else get byteOf g.written x) ∧
      (g'.hinfo.getTotalLogicalSize env.sinfo = if a.appendAfter = size then n else size) := by
  obtain ⟨m, hm, hmwf, hmget⟩ := intersect_spec blSplitMerge_lawful blSplitMerge_runs
    (ha.wf.mono (zero_le 1))
    (show 0 < uint64Max - a.appendAfter ∨ a.appendAfter = 0 from
      .inl (Nat.sub_pos_of_lt ha.after_lt))
  have hmax := ha.end_le
  have hle := ha.after_le_end
  have hmcov : ∀ x, Covered m x ↔ a.appendAfter ≤ x ∧ x < n := by
    intro x
    rw [← get_isSome_iff byteOf, hmget x]
    by_cases hx : a.appendAfter ≤ x ∧ x < a.appendAfter + (uint64Max - a.appendAfter)
    · rw [if_pos hx, get_isSome_iff, ha.behind x hx.1]
      simp [hx.1]
    · rw [if_neg hx]
      simp
      omega
  have hget : ∀ x, a.appendAfter ≤ x → get byteOf m x = get byteOf a.toWrite x := by
    intro x hx
    rw [hmget x]
    by_cases hx' : x < a.appendAfter + (uint64Max - a.appendAfter)
    · rw [if_pos ⟨hx, hx'⟩]
    · rw [if_neg fun h => hx' h.2, eq_comm, get_eq_none_iff_not_covered, ha.behind x hx]
      omega
  rcases hle.eq_or_lt with heq | hlt
  · -- nothing to append
    have hnil : m = [] := by
      cases m with
      | nil => rfl
      | cons e m =>
        have := (hmcov e.off).1 (hmwf.covered_off mem_cons_self)
        omega
    refine ⟨m, g, hm, by rw [hnil]; rfl, ⟨rfl, rfl, hwf, fun _ _ => rfl⟩, rfl, fun x => ?_, ?_⟩
    · by_cases hx : a.appendAfter ≤ x
      · rw [if_pos hx, hlow x hx, eq_comm, get_eq_none_iff_not_covered, ha.behind x hx]
        omega
      · rw [if_neg hx]
    · split <;> omega
  · -- one extent
    have hone : m.map (fun e => (e.off, e.len)) = [(a.appendAfter, n - a.appendAfter)] := by
      have hset : WF IntervalSet.lengths 1
          [⟨a.appendAfter, n - a.appendAfter, n - a.appendAfter⟩] :=
        ⟨pairwise_singleton _ _, fun e he => by
          rw [mem_singleton.1 he]
          exact ⟨by simp only; omega, rfl⟩⟩
      refine hmwf.map_off_len_eq hset fun x => ?_
      rw [hmcov x]
      simp only [Covered, mem_singleton, exists_eq_left, Extent.Covers, Extent.stop]
      omega
    obtain ⟨e, rfl⟩ := length_eq_one_iff.1 (by simpa using congrArg List.length hone)
    obtain ⟨hoff, hlen⟩ := Prod.mk.inj (List.cons.inj hone).1
    obtain ⟨hpos, hval⟩ := hmwf.sized e (by simp)
    have hvlen : e.val.length = e.len := hval
    have hal : StripeAligned env.sinfo e.off := hoff ▸ ha.after_aligned
    have hlal : StripeAligned env.sinfo e.len := by
      rw [hlen]
      exact aligned_sub ha.end_aligned ha.after_aligned
    have hafter := ha.after_le
    obtain ⟨g', hwrite, hwrote, hroll, hbytes, hkeep, hgrow⟩ := encodeAndWrite_spec henv hwf
      a.fadviseFlags hal (hvlen.symm ▸ hlal) (hvlen.symm ▸ hpos) (by
        rw [hoff, hsize]
        rcases hafter.eq_or_lt with h | h
        · exact .inr ⟨h, hfits⟩
        · exact .inl h)
    refine ⟨[e], g', hm, ?_, hwrote, hroll, fun x => ?_, ?_⟩
    · rw [foldlM_cons, appendExtent, assert_bind hal, assert_bind hlal, hwrite]
      rfl
    · rw [hbytes x, hvlen]
      by_cases hx : a.appendAfter ≤ x
      · rw [if_pos hx, ← hget x hx, get_singleton]
        by_cases hc : e.Covers x
        · rw [if_pos hc, if_pos (show e.off ≤ x ∧ x < e.off + e.len from hc)]
        · rw [if_neg hc, if_neg (show ¬ (e.off ≤ x ∧ x < e.off + e.len) from hc), hlow x hx]
      · rw [if_neg hx, if_neg (by omega)]
    · by_cases h : a.appendAfter = size
      · rw [if_pos h]
        omega
      · rw [if_neg h, hkeep (by omega), hsize]

/-- **The two loops.**  Whole stripes are written without a failed assertion; what
remains is to record the size. -/
theorem writeOut_eq (henv : env.Ready) {g : Gen} (hwritten : g.written = []) {size : ℕ}
    (hsize : g.hinfo.getTotalLogicalSize env.sinfo = size) (hfits : g.hinfo.Fits env.ec)
    (ha : a.Whole env size a.newSize) :
    ∃ g' toAppend, writeOut env g a = (noteExtents env a.newSize g' >>= fun g =>
          some (setHinfo env (noteAppend a.appendAfter toAppend g))) ∧
      g.Wrote env g' ∧ (∀ x, get byteOf g'.written x = get byteOf a.toWrite x) ∧
      (g'.hinfo.getTotalLogicalSize env.sinfo = if a.appendAfter = size then a.newSize else size) ∧
      (g'.rollbackExtents ≠ [] → g.rollbackExtents ≠ [] ∨ 0 < size) ∧
      (g.rollbackExtents ≠ [] → g'.rollbackExtents ≠ []) := by
  obtain ⟨toOverwrite, g₁, hint, hfold, hinv, howf, hget⟩ :=
    overwrite_spec henv hwritten (hsize ▸ ha)
  obtain ⟨toAppend, g₂, hint₂, hfold₂, hwrote, hroll, hbytes, htotal⟩ := append_spec henv hinv.wf ha
    (by rw [hinv.hinfo, hsize]) (hinv.hinfo ▸ hfits) (fun x hx => by
      rw [hinv.bytes x, hget x, if_neg (by omega)])
  refine ⟨g₂, toAppend, ?_, ⟨hwrote.op.trans hinv.op, hwrote.entry.trans hinv.entry, hwrote.wf,
    fun s size => (hwrote.left s size).trans (hinv.left s size)⟩, fun x => ?_, htotal, ?_, ?_⟩
  · rw [writeOut, hint]
    simp only [bind_eq_bind, bind_some]
    rw [hfold, bind_some, hint₂, bind_some, hfold₂, bind_some]
  · rw [hbytes x, hinv.bytes x, hget x]
    by_cases hx : a.appendAfter ≤ x
    · rw [if_pos hx]
    · rw [if_neg hx, if_pos (by omega)]
  · rw [hroll, hinv.saved]
    rintro (h | ⟨-, h⟩)
    · exact .inl h
    · cases toOverwrite with
      | nil => exact absurd rfl h
      | cons e m =>
        have hcov : (get byteOf (e :: m) e.off).isSome :=
          (get_isSome_iff _ _ _).2 (howf.covered_off mem_cons_self)
        have hle := ha.after_le
        rw [hget e.off] at hcov
        split at hcov
        · omega
        · cases hcov
  · rw [hroll, hinv.saved]
    exact .inl

/-! ## A small pool -/

/-- Stripes of four bytes, cut into two chunks. -/
def halves : StripeInfo := ⟨4, 2, by decide, by decide, by decide⟩

/-- A code without redundancy: the two halves of a stripe are its chunks. -/
def halvesCode : ErasureCodeInterface where
  chunkCount := 2
  encode := fun _ bl => (0, fun i => if i < 2 then some ((bl.drop (2 * i)).take 2) else none)
  crc32c := fun hash _ => hash

def halvesEnv : GenEnv where
  sinfo := halves
  ec := halvesCode
  oid := ⟨1, "obj"⟩
  shards := [0, 1]
  hashInfos := fun _ => none
  obcMap := fun _ => none

/-- An object of one stripe. -/
def halvesHinfo : HashInfo := ⟨2, [0, 0], 2⟩

def halvesEntry : PgLogEntry Soid where
  op := .modify
  soid := ⟨1, "obj"⟩
  version := ⟨1, 2⟩
  priorVersion := ⟨1, 1⟩

theorem halvesEnv_ready : halvesEnv.Ready where
  encodes := by
    intro buf hbuf
    refine ⟨rfl, fun i hi => ⟨(buf.drop (2 * i)).take 2, if_pos hi, ?_⟩⟩
    have hlen : buf.length = 4 := hbuf
    have hi' : i < 2 := hi
    rw [length_take, length_drop, hlen]
    show min 2 (4 - 2 * i) = 2
    omega
  chunks := by decide
  shards := by decide

end Ceph.Osd
