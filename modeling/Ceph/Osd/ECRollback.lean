import Ceph.Osd.ECUndo

/-!
# Rolling back an erasure coded write

A shard that applied a transaction of `generate_transactions` and then the rollback
of its log entry is back where it was (`rollback_restores`).  The objects that are
removed or created are dealt with in `ECUndo`; of an object that stays, the old
attributes, the old data of whatever is overwritten or cut off, and the old size
are kept while the transaction is generated.
-/

namespace Ceph.Osd

open IntervalMap StripeInfo Store List Option Gen
open StripeInfo renaming logicalToPrevStripeOffset → prevStripe,
  logicalToNextStripeOffset → nextStripe, LogicalOffsetIsStripeAligned → StripeAligned,
  logicalToPrevChunkOffset → prevChunk

variable {env : GenEnv} {s v : ℕ}

/-! ## Attributes -/

theorem ObjectContext.lookup_update_of_ne (obc : ObjectContext) {name n : String} (h : n ≠ name)
    (val : Option Buffer) :
    (obc.update name val).attrCache.lookup n = obc.attrCache.lookup n := by
  obtain ⟨cache⟩ := obc
  have hbeq : (n == name) = false := beq_eq_false_iff_ne.2 h
  show (cache.filter (·.1 ≠ name) ++ (val.map fun bl => (name, bl)).toList).lookup n =
    cache.lookup n
  induction cache with
  | nil =>
    cases val with
    | none => rfl
    | some bl => simp [lookup_cons, hbeq]
  | cons attr cache ih =>
    obtain ⟨k, b⟩ := attr
    by_cases hk : k = name
    · have hne : (n == k) = false := beq_eq_false_iff_ne.2 fun heq => h (heq.trans hk)
      rw [filter_cons_of_neg (by simp [hk]), ih, lookup_cons, hne]
    · rw [filter_cons_of_pos (by simp [hk]), cons_append, lookup_cons, lookup_cons, ih]

/-- The attributes of the object and its context, while the old values are noted. -/
structure Noted (env : GenEnv) (s : ℕ) (store : Store) (obj : StoredObject) (g : Gen) : Prop where
  object : ∃ xattrs, store.applyAll (g.transactions s) ⟨env.oid, none⟩ = some ⟨obj.data, xattrs⟩ ∧
    AttrsSaved obj.xattrs g.xattrRollback xattrs
  cache : ∃ obc, g.obc = some obc ∧ ∀ name, name ∉ g.xattrRollback.map (·.1) →
    obc.attrCache.lookup name = obj.xattrs name
  entry : g.entry.isSome

theorem OldAttrs.mem_insertNew_of_mem {noted : OldAttrs} {name : String} (more : OldAttrs)
    (h : name ∈ noted.map (·.1)) : name ∈ (noted.insertNew more).map (·.1) := by
  rw [OldAttrs.insertNew, map_append]
  exact mem_append_left _ h

variable {obj : StoredObject}

/-- One attribute. -/
theorem updateAttr_noted {store : Store} {g g' : Gen} {attr : String × Option Buffer}
    (h : Noted env s store obj g) (hrun : updateAttr env g attr = some g') :
    Noted env s store obj g' ∧ attr.1 ∈ g'.xattrRollback.map (·.1) ∧
      ∀ name ∈ g.xattrRollback.map (·.1), name ∈ g'.xattrRollback.map (·.1) := by
  obtain ⟨xattrs, hobj, hsaved⟩ := h.object
  obtain ⟨obc, hobc, hcache⟩ := h.cache
  obtain ⟨-, hentry, -, -, htrans, hnote⟩ := updateAttr_eq_some hrun
  obtain ⟨hobc', hroll⟩ := hnote obc hobc h.entry
  have hmem : attr.1 ∈ g'.xattrRollback.map (·.1) := by
    rw [hroll]
    exact AttrsSaved.mem_insertNew _ _ _
  have hnoted : AttrsSaved obj.xattrs g'.xattrRollback xattrs := by
    rw [hroll]
    exact hsaved.note (hcache attr.1)
  have hmono : ∀ name ∈ g.xattrRollback.map (·.1), name ∈ g'.xattrRollback.map (·.1) := by
    intro name hname
    rw [hroll]
    exact OldAttrs.mem_insertNew_of_mem _ hname
  refine ⟨⟨?_, ⟨_, hobc', fun name hname => ?_⟩, hentry ▸ h.entry⟩, hmem, hmono⟩
  · rw [htrans s, applyAll_append]
    split
    · exact ⟨xattrs, hobj, hnoted⟩
    · refine ⟨_, ?_, hnoted.remove hmem⟩
      show Store.apply _ (.rmattr ⟨env.oid, none⟩ attr.1) ⟨env.oid, none⟩ = _
      rw [apply, modify_self, hobj]
      rfl
  · have hne : name ≠ attr.1 := fun heq => hname (heq ▸ hmem)
    rw [obc.lookup_update_of_ne hne]
    exact hcache name fun hin => hname (hmono name hin)

/-- The loop over the attributes. -/
theorem updateAttrs_noted {store : Store} {attrs : List (String × Option Buffer)} {g g' : Gen}
    (h : Noted env s store obj g) (hrun : attrs.foldlM (updateAttr env) g = some g') :
    Noted env s store obj g' ∧ (∀ attr ∈ attrs, attr.1 ∈ g'.xattrRollback.map (·.1)) ∧
      ∀ name ∈ g.xattrRollback.map (·.1), name ∈ g'.xattrRollback.map (·.1) := by
  induction attrs generalizing g with
  | nil =>
    cases hrun
    exact ⟨h, by simp, fun _ hn => hn⟩
  | cons attr attrs ih =>
    obtain ⟨g₁, hg₁, hrun⟩ := of_bind hrun
    obtain ⟨h₁, hmem₁, hmono₁⟩ := updateAttr_noted h hg₁
    obtain ⟨h', hmem', hmono'⟩ := ih h₁ hrun
    refine ⟨h', fun a ha => ?_, fun name hname => hmono' name (hmono₁ name hname)⟩
    rcases mem_cons.1 ha with rfl | ha
    · exact hmono' _ hmem₁
    · exact hmem' a ha

/-! ## Data -/

section Chunks

variable {sinfo : StripeInfo}

theorem prevChunk_mono (sinfo : StripeInfo) {a b : ℕ} (h : a ≤ b) :
    prevChunk sinfo a ≤ prevChunk sinfo b :=
  Nat.mul_le_mul_right _ (Nat.div_le_div_right h)

theorem prevChunk_prev (a : ℕ) : prevChunk sinfo (prevStripe sinfo a) = prevChunk sinfo a := by
  have hdiv := Nat.div_add_mod' a sinfo.stripeWidth
  have hprev : prevStripe sinfo a = a / sinfo.stripeWidth * sinfo.stripeWidth := by
    rw [logicalToPrevStripeOffset]
    omega
  rw [logicalToPrevChunkOffset, logicalToPrevChunkOffset, hprev,
    Nat.mul_div_cancel _ sinfo.stripeWidth_pos]

theorem prevChunk_pos {a : ℕ} (ha : StripeAligned sinfo a) (hpos : 0 < a) :
    0 < prevChunk sinfo a := by
  have hle := Nat.le_of_dvd hpos ((sinfo.aligned_iff).1 ha)
  exact Nat.mul_pos (Nat.div_pos hle sinfo.stripeWidth_pos) sinfo.chunkSize_pos

/-- The chunks of a buffer are as long as its stripes say. -/
theorem length_of_encode {ec : ErasureCodeInterface} {bl : Buffer} {want : Finset ℕ} {r : ℤ}
    {buffers : ChunkMap} (h : encode sinfo ec bl want = some (r, buffers)) (hpos : bl.length ≠ 0)
    {i : ℕ} (hi : i < ec.chunkCount) (hsome : (buffers i).isSome) :
    (buffers.at i).length = prevChunk sinfo bl.length := by
  obtain ⟨-, h⟩ := of_assert h
  rw [if_neg hpos] at h
  obtain ⟨out, -, h⟩ := of_bind h
  obtain ⟨hall, h⟩ := of_assert h
  obtain ⟨-, rfl⟩ := Prod.mk.inj (some_inj.1 h)
  obtain ⟨chunk, hchunk⟩ := isSome_iff_exists.1 hsome
  have hlen := hall i hi
  rw [hchunk, all_some, decide_eq_true_eq, alignedChunkOffsetToLogicalOffset] at hlen
  split at hlen
  next hmod =>
    rw [ChunkMap.at, hchunk, getD_some, ← some_inj.1 hlen, logicalToPrevChunkOffset,
      Nat.mul_div_cancel _ sinfo.stripeWidth_pos, Nat.div_mul_cancel (Nat.dvd_of_mod_eq_zero hmod)]
  · cases hlen

end Chunks

theorem insert_wf {m m' : ExtentMap} (h : WF blSplitMerge 1 m) {off len : ℕ} {bl : Buffer}
    (hins : IntervalMap.insert blSplitMerge off len bl m = some m') : WF blSplitMerge 1 m' := by
  obtain ⟨hlen, ha⟩ := insert_eq_some hins
  obtain ⟨m'', hm'', hwf, -⟩ := insert_spec blSplitMerge_lawful blSplitMerge_runs h off hlen ha
  rwa [some_inj.1 (hins.symm.trans hm'')]

variable {a : Assembly}

/-- The bytes to write stay disjoint runs, whatever the operation. -/
theorem addUpdate_wf {sinfo : StripeInfo} {a' : Assembly} {e : Extent BufferUpdate}
    (hwf : WF blSplitMerge 1 a.toWrite) (h : addUpdate sinfo a e = some a') :
    WF blSplitMerge 1 a'.toWrite ∧ a'.appendAfter = a.appendAfter := by
  obtain ⟨⟨bl, flags⟩, -, h⟩ := of_bind h
  obtain ⟨-, h⟩ := of_assert h
  obtain ⟨-, h⟩ := of_assert h
  obtain ⟨toWrite, hins, h⟩ := of_bind h
  cases h
  exact ⟨insert_wf hwf hins, rfl⟩

theorem truncateOut_wf {sinfo : StripeInfo} {truncate : Option (ℕ × ℕ)} {a' : Assembly}
    (hwf : WF blSplitMerge 1 a.toWrite) (h : truncateOut sinfo truncate a = some a') :
    WF blSplitMerge 1 a'.toWrite ∧ a'.appendAfter = a.appendAfter := by
  cases truncate with
  | none =>
    cases h
    exact ⟨hwf, rfl⟩
  | some p =>
    rw [truncateOut] at h
    split at h
    · obtain ⟨-, h⟩ := of_assert h
      obtain ⟨toWrite, hins, h⟩ := of_bind h
      cases h
      exact ⟨insert_wf hwf hins, rfl⟩
    · cases h
      exact ⟨hwf, rfl⟩

theorem cutToWrite_wf {sinfo : StripeInfo} {first : ℕ} {read : ExtentMap}
    (hwf : WF blSplitMerge 1 read) (h : cutToWrite sinfo first read = some a) :
    WF blSplitMerge 1 a.toWrite ∧ a.appendAfter = prevStripe sinfo first ∧
      a.newSize = nextStripe sinfo first := by
  rw [cutToWrite] at h
  split at h
  · obtain ⟨toWrite, hins, h⟩ := of_bind h
    cases h
    exact ⟨WF.erase blSplitMerge_lawful le_rfl (insert_wf hwf hins) _ _, rfl, rfl⟩
  next heq =>
    rw [not_not] at heq
    cases h
    refine ⟨WF.erase blSplitMerge_lawful le_rfl hwf _ _, ?_, rfl⟩
    rw [prev_eq_self (heq ▸ sinfo.next_aligned first), heq]

variable {flags : UInt32}

/-- What a write does to a shard. -/
theorem encodeAndWrite_apply {g g' : Gen} {offset : ℕ} {bl : Buffer}
    (h : encodeAndWrite env offset bl flags g = some g') (hs : s ∈ env.shards)
    (hcount : s < env.ec.chunkCount) :
    ∃ data len, data.length = prevChunk env.sinfo bl.length ∧
      ∀ store : Store, store.applyAll (g'.transactions s) =
        (store.applyAll (g.transactions s)).apply
          (.write ⟨env.oid, none⟩ (prevChunk env.sinfo offset) len data flags) := by
  obtain ⟨-, -, hpos, buffers, henc, -, -, -, -, hshards, rfl⟩ :=
    encodeAndWrite_eq_some.1 h
  refine ⟨buffers.at s, (buffers.at s).length, length_of_encode henc hpos hcount (hshards s hs),
    fun store => ?_⟩
  rw [encoded, emit, applyAll_append]
  split <;> rfl

/-- The shard, while data is written: everything needed to undo it is kept. -/
structure Kept (env : GenEnv) (s v : ℕ) (store : Store) (old : Buffer)
    (xattrs : String → Option Buffer) (after : ℕ) (g : Gen) (cur : Buffer) : Prop where
  saved : Saved ⟨env.oid, none⟩ ⟨env.oid, some v⟩ old xattrs
    (env.sinfo.logicalToPrevChunkOffset after) g.rollbackExtents cur
    (store.applyAll (g.transactions s))
  after_le : env.sinfo.logicalToPrevChunkOffset after ≤ old.length
  cover : ∀ x, env.sinfo.logicalToPrevChunkOffset after ≤ x → x < old.length →
    InExtents g.rollbackExtents x

section Data

variable {store : Store} {old : Buffer} {xattrs : String → Option Buffer} {e : PgLogEntry Soid}

/-- The object is kept, and none of its data is changed yet. -/
structure Untouched (env : GenEnv) (s v : ℕ) (store : Store) (old : Buffer)
    (xattrs : String → Option Buffer) (e : PgLogEntry Soid) (g : Gen) : Prop where
  entry : g.entry = some e
  version : e.version.version = v
  kept : g.op.isFreshObject = false
  unsaved : g.rollbackExtents = []
  aligned : StripeAligned env.sinfo (g.hinfo.getTotalLogicalSize env.sinfo)
  length_eq : old.length = g.hinfo.totalChunkSize
  object : store.applyAll (g.transactions s) ⟨env.oid, none⟩ = some ⟨old, xattrs⟩
  stash : store.applyAll (g.transactions s) ⟨env.oid, some v⟩ = none

theorem Untouched.saved {g : Gen} (h : Untouched env s v store old xattrs e g) (after : ℕ)
    (hafter : prevChunk env.sinfo after ≤ old.length) :
    Saved ⟨env.oid, none⟩ ⟨env.oid, some v⟩ old xattrs
      (prevChunk env.sinfo after) g.rollbackExtents old
      (store.applyAll (g.transactions s)) := by
  rw [h.unsaved]
  exact ⟨h.object, hafter, fun _ _ _ => rfl, fun _ => h.stash, fun h => absurd rfl h, by simp⟩

/-- The object is cut, and the data from `after` on is still to be written. -/
structure CutTo (env : GenEnv) (s v : ℕ) (store : Store) (old : Buffer)
    (xattrs : String → Option Buffer) (g g' : Gen) (a : Assembly) (cur : Buffer) : Prop where
  kept : Kept env s v store old xattrs a.appendAfter g' cur
  length_le : cur.length ≤ old.length
  entry : g'.entry = g.entry
  op : g'.op = g.op
  wf : WF blSplitMerge 1 a.toWrite
  aligned : env.sinfo.LogicalOffsetIsStripeAligned a.appendAfter
  behind : ∀ x, InExtents g'.rollbackExtents x →
    env.sinfo.logicalToPrevChunkOffset a.appendAfter ≤ x
  after_le : a.appendAfter ≤ g.hinfo.getTotalLogicalSize env.sinfo

/-- Cutting the object: what is cut off goes to the stash. -/
theorem truncateDown_kept {g g' : Gen} {read : ExtentMap}
    (hold : Untouched env s v store old xattrs e g) (hread : WF blSplitMerge 1 read)
    (h : truncateDown env g read = some (g', a)) :
    ∃ cur, CutTo env s v store old xattrs g g' a cur := by
  have ⟨hentry, hv, hfresh, hroll, hal, hlen, _, _⟩ := hold
  have hne := stash_ne env.oid env.oid v
  have htotal := prevChunk_total hal
  rw [← hlen] at htotal
  -- nothing is cut off
  have hkeep : some (g, (⟨read, g.hinfo.getTotalLogicalSize env.sinfo,
      g.hinfo.getTotalLogicalSize env.sinfo, 0⟩ : Assembly)) = some (g', a) →
      ∃ cur, CutTo env s v store old xattrs g g' a cur := by
    intro heq
    cases heq
    refine ⟨old, ⟨hold.saved _ htotal.le, htotal.le, fun x h1 h2 => ?_⟩, le_rfl, rfl,
      rfl, hread, hal, fun x hx => ?_, le_rfl⟩
    · simp only at h1
      omega
    · rw [hroll] at hx
      obtain ⟨ext, hext, -⟩ := hx
      cases hext
  rw [truncateDown] at h
  cases htr : g.op.truncate with
  | none =>
    rw [htr] at h
    exact hkeep h
  | some p =>
    obtain ⟨first, second⟩ := p
    rw [htr] at h
    simp only at h
    split at h
    next hlt =>
      obtain ⟨-, h⟩ := of_assert h
      obtain ⟨a', ha', h⟩ := of_bind h
      obtain ⟨g₁, hg₁, h⟩ := of_bind h
      obtain ⟨size, hsize, h⟩ := of_bind h
      obtain ⟨rfl, rfl⟩ := Prod.mk.inj (some_inj.1 h)
      obtain ⟨hawf, happ, hnew⟩ := cutToWrite_wf hread ha'
      rw [hnew, alignedToChunk_of_aligned (env.sinfo.next_aligned first)] at hsize
      obtain rfl := some_inj.1 hsize
      have hprev := env.sinfo.prev_le first
      have hprevlt : prevStripe env.sinfo first < g.hinfo.getTotalLogicalSize env.sinfo := by omega
      have hrest := aligned_sub hal (env.sinfo.prev_aligned first)
      -- the part that is cut off, in chunks
      have hsum := prevChunk_add (b := g.hinfo.getTotalLogicalSize env.sinfo -
        prevStripe env.sinfo first) (env.sinfo.prev_aligned first)
      rw [Nat.add_sub_cancel' hprevlt.le, prevChunk_prev] at hsum
      have hposlen := prevChunk_pos hrest (by omega)
      rw [saveTruncated, hentry] at hg₁
      simp only [hfresh, Bool.false_eq_true, not_false_eq_true, if_true,
        alignedToChunk_of_aligned hrest] at hg₁
      obtain ⟨-, hg₁⟩ := of_assert hg₁
      obtain rfl := some_inj.1 hg₁
      have hchunk : prevChunk env.sinfo a'.appendAfter =
          prevChunk env.sinfo first := by rw [happ, prevChunk_prev]
      have hstart := hold.saved a'.appendAfter (by omega)
      rw [hroll] at hstart
      have hsave := hstart.save hne (prevChunk env.sinfo first) hposlen
        (by omega) (by omega) fun _ _ _ => rfl
      have hnext : prevChunk env.sinfo a'.appendAfter ≤
          prevChunk env.sinfo (nextStripe env.sinfo first) := by
        rw [hchunk]
        exact prevChunk_mono _ (env.sinfo.le_next first)
      have hcutle : prevChunk env.sinfo (nextStripe env.sinfo first) ≤ old.length := by
        rw [← htotal]
        exact prevChunk_mono _ ((next_le_iff hal).2 hlt.le)
      refine ⟨resize old (prevChunk env.sinfo (nextStripe env.sinfo first)),
        ⟨?_, by omega, fun x h1 h2 => ?_⟩, ?_, hentry.symm, rfl, hawf,
        happ ▸ env.sinfo.prev_aligned first, fun x hx => ?_, by omega⟩
      · have hcut := hsave.truncate hne hnext
        rw [← hv] at hcut ⊢
        simp only [emit, applyAll_append]
        exact hcut
      · exact ⟨_, mem_singleton_self _, by omega, by omega⟩
      · rwa [length_resize]
      · obtain ⟨ext, hext, h1, -⟩ := hx
        rw [mem_singleton.1 hext] at h1
        omega
    · exact hkeep h

section

variable {g g' : Gen} {after : ℕ} {cur : Buffer} (hs : s ∈ env.shards)
  (hcount : s < env.ec.chunkCount) (hentry : g.entry = some e) (hv : e.version.version = v)
  (h : Kept env s v store old xattrs after g cur) (hcur : cur.length ≤ old.length)

include hs hcount hentry hv h hcur

/-- One turn of the loop over the extents to overwrite. -/
theorem overwriteExtent_kept {x : Extent Buffer} (hpos : 0 < x.len) (hval : x.val.length = x.len)
      (hnew : ∀ i, prevChunk env.sinfo x.off ≤ i → i <
      prevChunk env.sinfo x.stop → ¬ InExtents g.rollbackExtents i)
    (hrun : overwriteExtent env after flags g x = some g') :
    ∃ cur', Kept env s v store old xattrs after g' cur' ∧ cur'.length ≤ old.length ∧
      g'.entry = g.entry ∧ g'.op = g.op ∧
      ∀ i, InExtents g'.rollbackExtents i → InExtents g.rollbackExtents i ∨
        (prevChunk env.sinfo x.off ≤ i ∧ i < prevChunk env.sinfo x.stop) := by
  have hne := stash_ne env.oid env.oid v
  obtain ⟨hstop, hoff, hlen, hwrite⟩ := overwriteExtent_eq_some hentry hrun
  have hsp := encodeAndWrite_spares (s := s) (v := v) hwrite
  obtain ⟨data, len, hdata, happly⟩ := encodeAndWrite_apply hwrite hs hcount
  have hsum : prevChunk env.sinfo x.stop = prevChunk env.sinfo x.off + prevChunk env.sinfo x.len :=
    prevChunk_add hoff
  have hbelow : prevChunk env.sinfo x.stop ≤ prevChunk env.sinfo after := prevChunk_mono _ hstop
  have hreach := h.saved.length
  have hle := h.after_le
  have hsave := h.saved.save hne _ (prevChunk_pos hlen hpos) (by omega) (by omega) fun i h1 h2 =>
    h.saved.kept i (by omega) (hnew i h1 (by omega))
  rw [hval] at hdata
  have hwritten := hsave.write hne data
    (fun i _ h1 h2 => inExtents_concat.2 (.inr ⟨h1, by omega⟩)) len flags
  have hext : g'.rollbackExtents = g.rollbackExtents ++ [(prevChunk env.sinfo x.off,
      prevChunk env.sinfo x.len)] := hsp.rollbackExtents
  refine ⟨overwrite cur (prevChunk env.sinfo x.off) data,
    ⟨?_, hle, fun i h1 h2 => ?_⟩, ?_, hsp.entry.trans hentry.symm, hsp.op, fun i hi => ?_⟩
  · rwa [hext, happly, extentSaved, emit, applyAll_append, applyAll_append, hv]
  · rw [hext]
    exact inExtents_concat.2 (.inl (h.cover i h1 h2))
  · rw [length_overwrite]
    omega
  · rw [hext, inExtents_concat] at hi
    rcases hi with hi | hi
    · exact .inl hi
    · exact .inr (by omega)

/-- The loop over the extents to overwrite. -/
theorem overwriteExtents_kept {extents : ExtentMap} (hwf : WF blSplitMerge 1 extents)
    (hbehind : ∀ i, InExtents g.rollbackExtents i → prevChunk env.sinfo after ≤ i)
    (hrun : extents.foldlM (overwriteExtent env after flags) g = some g') :
    ∃ cur', Kept env s v store old xattrs after g' cur' ∧ cur'.length ≤ old.length ∧
      g'.entry = g.entry ∧ g'.op = g.op := by
  -- what is saved is behind `after` or belongs to the extents already done
  obtain ⟨cur', h', hcur', hentry', hop', -⟩ := Loop.foldlM_some_invariant
    (fun (pre : ExtentMap) g₁ => ∃ cur₁, Kept env s v store old xattrs after g₁ cur₁ ∧
      cur₁.length ≤ old.length ∧ g₁.entry = g.entry ∧ g₁.op = g.op ∧
      ∀ i, InExtents g₁.rollbackExtents i → prevChunk env.sinfo after ≤ i ∨
        ∃ y ∈ pre, i < prevChunk env.sinfo y.stop) hrun
    ⟨cur, h, hcur, rfl, rfl, fun i hi => .inl (hbehind i hi)⟩
    (by
      rintro pre x post g₁ g₂ hl ⟨cur₁, h₁, hcur₁, hentry₁, hop₁, hsaved₁⟩ hstep
      have hx : x ∈ extents := by
        rw [hl]
        simp
      obtain ⟨hpos, hval⟩ := hwf.sized x hx
      obtain ⟨hstop, -⟩ := overwriteExtent_eq_some (hentry₁.trans hentry) hstep
      have hbefore : ∀ y ∈ pre, y.stop ≤ x.off := by
        intro y hy
        have hap := hwf.apart
        rw [hl] at hap
        have := (pairwise_append.1 hap).2.2 y hy x mem_cons_self
        omega
      obtain ⟨cur₂, h₂, hcur₂, hentry₂, hop₂, hsaved₂⟩ := overwriteExtent_kept hs hcount
        (hentry₁.trans hentry) hv h₁ hcur₁ hpos hval (fun i h1 h2 hin => by
          rcases hsaved₁ i hin with hge | ⟨y, hy, hlt⟩
          · have := prevChunk_mono env.sinfo hstop
            omega
          · have := prevChunk_mono env.sinfo (hbefore y hy)
            omega) hstep
      refine ⟨cur₂, h₂, hcur₂, hentry₂.trans hentry₁, hop₂.trans hop₁, fun i hi => ?_⟩
      rcases hsaved₂ i hi with hi | hi
      · rcases hsaved₁ i hi with hge | ⟨y, hy, hlt⟩
        · exact .inl hge
        · exact .inr ⟨y, mem_append_left _ hy, hlt⟩
      · exact .inr ⟨x, by simp, hi.2⟩)
  exact ⟨cur', h', hcur', hentry', hop'⟩

end

/-- The loop over the extents to append. -/
theorem appendExtents_kept {g g' : Gen} {after : ℕ} {cur : Buffer} {extents : ExtentMap}
    (hs : s ∈ env.shards) (hcount : s < env.ec.chunkCount)
    (h : Kept env s v store old xattrs after g cur) (hbehind : ∀ x ∈ extents, after ≤ x.off)
    (hrun : extents.foldlM (appendExtent env flags) g = some g') :
    ∃ cur', Kept env s v store old xattrs after g' cur' ∧ (extents = [] → cur' = cur) := by
  have hne := stash_ne env.oid env.oid v
  refine Loop.foldlM_some_invariant
    (fun (pre : ExtentMap) g₁ => ∃ cur₁, Kept env s v store old xattrs after g₁ cur₁ ∧
      (pre = [] → cur₁ = cur)) hrun ⟨cur, h, fun _ => rfl⟩ ?_
  rintro pre x post g₁ g₂ hl ⟨cur₁, h₁, -⟩ hstep
  obtain ⟨-, hwrite⟩ := appendExtent_eq_some hstep
  have hsp := encodeAndWrite_spares (s := s) (v := v) hwrite
  obtain ⟨data, len, -, happly⟩ := encodeAndWrite_apply hwrite hs hcount
  have hoff : prevChunk env.sinfo after ≤ prevChunk env.sinfo x.off :=
    prevChunk_mono _ (hbehind x (by rw [hl]; simp))
  refine ⟨overwrite cur₁ (prevChunk env.sinfo x.off) data,
    ⟨?_, h₁.after_le, ?_⟩, fun hnil => by simp at hnil⟩
  · rw [hsp.rollbackExtents, happly]
    exact h₁.saved.write hne data (fun i hi h1 _ => by omega) len flags
  · rw [hsp.rollbackExtents]
    exact h₁.cover

end Data

/-! ## The whole operation -/

/-- Applying the transaction of shard `s` and then the rollback of the log entry gives
back the object, and the stash of generation `v` is gone. -/
def RollsBack (env : GenEnv) (s v : ℕ) (store : Store) (g : Gen) : Prop :=
  ∃ e undo, g.entry = some e ∧ e.canRollback ∧ rollback env.sinfo e = some undo ∧
    ((store.applyAll (g.transactions s)).applyAll undo) ⟨env.oid, none⟩ = store ⟨env.oid, none⟩ ∧
    ((store.applyAll (g.transactions s)).applyAll undo) ⟨env.oid, some v⟩ = none

section Whole

variable {store : Store} {e : PgLogEntry Soid} {g g₂ g₃ g' : Gen} {read : ExtentMap}

/-- The records of an operation that keeps the object, undone one after the other. -/
theorem rollsBack_records {old : StoredObject} {noted : OldAttrs} {xattrs : String → Option Buffer}
    {after : ℕ} {cur : Buffer} {records : List ModOp} {appended : Bool}
    (htemp : env.oid.isTemp = false) (hsoid : e.soid = env.oid)
    (hroll : e.modDesc.canLocalRollback = true) (hharm : Harmless env.sinfo env.oid records)
    (hbl : e.modDesc.bl = records ++ [.setattrs noted] ++
      (if g.rollbackExtents.isEmpty then [] else [.rollbackExtents v g.rollbackExtents]) ++
      (if appended then [.append after] else []))
    (hattrs : AttrsSaved old.xattrs noted xattrs)
    (hkept : Kept env s v store old.data xattrs after g cur)
    (hal : StripeAligned env.sinfo after)
    (happ : appended = false → cur.length ≤ old.data.length) :
    ∃ undo, rollback env.sinfo e = some undo ∧
      ((store.applyAll (g.transactions s)).applyAll undo) ⟨env.oid, none⟩ = some old ∧
      ((store.applyAll (g.transactions s)).applyAll undo) ⟨env.oid, some v⟩ = none := by
  obtain ⟨ops₀, hops₀, hnothing⟩ := hharm
  obtain ⟨store', hstore', hdata, hgone⟩ := hkept.saved.undo happ hkept.after_le hkept.cover
  obtain ⟨opsA, hopsA, hobj, hother⟩ := hattrs.undo htemp hdata
  have hundoA : undoAll env.sinfo env.oid (records ++ [.setattrs noted]) = some (opsA ++ ops₀) :=
    undoAll_concat hops₀ hopsA
  have hundoE : undoAll env.sinfo env.oid (records ++ [.setattrs noted] ++
      (if g.rollbackExtents.isEmpty then [] else [.rollbackExtents v g.rollbackExtents])) =
      some ((if g.rollbackExtents.isEmpty then []
        else rollbackExtents v g.rollbackExtents env.oid) ++ (opsA ++ ops₀)) := by
    split
    · rwa [append_nil]
    · exact undoAll_concat hundoA rfl
  have hundo : undoAll env.sinfo env.oid e.modDesc.bl =
      some ((if appended then [.truncate ⟨env.oid, none⟩ (prevChunk env.sinfo after)]
        else []) ++ ((if g.rollbackExtents.isEmpty then []
          else rollbackExtents v g.rollbackExtents env.oid) ++ (opsA ++ ops₀))) := by
    rw [hbl]
    cases appended with
    | true =>
      refine undoAll_concat hundoE ?_
      show rollbackAppend env.sinfo env.oid after = _
      rw [rollbackAppend, assert_bind (show after % env.sinfo.stripeWidth = 0 from hal),
        alignedToChunk_of_aligned hal]
      rfl
    | false =>
      rwa [if_neg Bool.false_ne_true, append_nil]
  refine ⟨_, by rw [rollback_eq hroll, hsoid]; exact hundo, ?_⟩
  rw [← append_assoc, applyAll_append, hstore', applyAll_append, hnothing]
  exact ⟨hobj, (hother v).trans hgone⟩

/-- The attributes of an operation that keeps the object. -/
theorem updateAttrs_kept (h : Noted env s store obj g) (hrun : updateAttrs env g = some g') :
    ∃ xattrs, store.applyAll (g'.transactions s) ⟨env.oid, none⟩ = some ⟨obj.data, xattrs⟩ ∧
      AttrsSaved obj.xattrs g'.xattrRollback xattrs ∧
      ∀ name ∈ g.xattrRollback.map (·.1), name ∈ g'.xattrRollback.map (·.1) := by
  obtain ⟨g₁, hg₁, hor⟩ := updateAttrs_eq_some hrun
  obtain ⟨h₁, hmem, hmono⟩ := updateAttrs_noted h hg₁
  obtain ⟨xattrs, hobj, hsaved⟩ := h₁.object
  rcases hor with ⟨rfl, -⟩ | rfl
  · exact ⟨xattrs, hobj, hsaved, hmono⟩
  refine ⟨setXattrs xattrs (g.op.attrUpdates.filterMap fun attr =>
    attr.2.map fun val => (attr.1, val)), ?_, hsaved.set fun attr hattr => ?_, hmono⟩
  · rw [emit, applyAll_append]
    show Store.apply _ (.setattrs ⟨env.oid, none⟩ _) ⟨env.oid, none⟩ = _
    rw [apply, modify_self, hobj]
    rfl
  · obtain ⟨attr', hattr', hval⟩ := mem_filterMap.1 hattr
    obtain ⟨val, -, rfl⟩ := of_map hval
    exact hmem attr' hattr'

/-- The undo records of the data, once it is written. -/
theorem noteExtents_eq_some {n : ℕ} (hentry : g.entry = some e) (hv : e.version.version = v)
    (h : noteExtents env n g = some g') :
    ∃ e', g'.entry = some e' ∧ SameEntry e e' ∧ (e.Open → e'.Open) ∧ e'.modDesc.bl = e.modDesc.bl ++
        (if g.rollbackExtents.isEmpty then [] else [.rollbackExtents v g.rollbackExtents]) ∧
      g'.op = g.op ∧ g'.rollbackExtents = g.rollbackExtents ∧ g'.transactions = g.transactions := by
  rw [noteExtents, hentry] at h
  simp only at h
  split at h
  next hne =>
    obtain ⟨desc, hdesc, h⟩ := of_bind h
    obtain ⟨-, hdesc⟩ := of_assert hdesc
    obtain ⟨-, hdesc⟩ := of_assert hdesc
    obtain ⟨size, -, h⟩ := of_bind h
    have hemp : ¬ g.rollbackExtents.isEmpty = true := by rwa [List.isEmpty_iff]
    rw [← some_inj.1 h, ← some_inj.1 hdesc, if_neg hemp]
    exact ⟨_, rfl, ⟨rfl, rfl⟩, fun ho => ⟨ho.1, ho.2⟩, by rw [hv], rfl, rfl, rfl⟩
  next hnil =>
    rw [not_not] at hnil
    obtain ⟨-, h⟩ := of_assert h
    rw [← some_inj.1 h, if_pos (List.isEmpty_iff.2 hnil)]
    exact ⟨e, hentry, ⟨rfl, rfl⟩, id, (append_nil _).symm, rfl, rfl, rfl⟩

theorem noteAppend_eq (after : ℕ) (toAppend : ExtentMap) (hentry : g.entry = some e)
    (hopen : e.Open) :
    ∃ e', (noteAppend after toAppend g).entry = some e' ∧ SameEntry e e' ∧ e'.Open ∧
      e'.modDesc.bl = e.modDesc.bl ++ (if !toAppend.isEmpty then [.append after] else []) ∧
      (noteAppend after toAppend g).op = g.op ∧
      (noteAppend after toAppend g).rollbackExtents = g.rollbackExtents ∧
      (noteAppend after toAppend g).transactions = g.transactions := by
  rw [noteAppend]
  cases hemp : toAppend.isEmpty with
  | true => exact ⟨e, hentry, ⟨rfl, rfl⟩, hopen, (append_nil _).symm, rfl, rfl, rfl⟩
  | false =>
    have hrec := ObjectModDesc.record_of_open hopen (.append after)
    refine ⟨{ e with modDesc := e.modDesc.append after }, by rw [modDesc, hentry]; rfl,
      ⟨rfl, rfl⟩, ⟨?_, ?_⟩, ?_, rfl, rfl, rfl⟩
    · exact (congrArg _ hrec).trans hopen.canLocalRollback
    · exact (congrArg _ hrec).trans hopen.notCompleted
    · exact congrArg ObjectModDesc.bl hrec

theorem setAllocHint_apply (env : GenEnv) (g : Gen) (s : ℕ) (store : Store) :
    store.applyAll ((setAllocHint env g).transactions s) = store.applyAll (g.transactions s) := by
  rw [setAllocHint]
  cases g.op.allocHint with
  | none => rfl
  | some hint =>
    simp only [emit, applyAll_append]
    rfl

/-- What was cut, laid out and written of an object that is kept. -/
theorem generateData_kept {old : Buffer} {xattrs : String → Option Buffer}
    (hold : Untouched env s v store old xattrs e g) (hopen : e.Open) (hdel : g.op.isDelete = false)
    (hmax : g.hinfo.getTotalLogicalSize env.sinfo < uint64Max)
    (hread : WF blSplitMerge 1 read) (hs : s ∈ env.shards) (hcount : s < env.ec.chunkCount)
    (hdata : (assemble env read g >>= fun p => writeOut env p.1 p.2) = some g') :
    ∃ e' after appended cur val, g'.entry = some e' ∧ SameEntry e e' ∧ e'.Open ∧
      e'.modDesc.bl = e.modDesc.bl ++
        (if g'.rollbackExtents.isEmpty then [] else [.rollbackExtents v g'.rollbackExtents]) ++
        (if appended then [.append after] else []) ∧
      Kept env s v store old (setXattrs xattrs [(getHinfoKey, val)]) after g' cur ∧
      StripeAligned env.sinfo after ∧
      (appended = false → cur.length ≤ old.length) := by
  obtain ⟨⟨g₁, a⟩, hassemble, hwrite⟩ := of_bind hdata
  obtain ⟨⟨g₀, a₀⟩, hdown, hassemble⟩ := of_bind hassemble
  obtain ⟨a₁, hadd, hassemble⟩ := of_bind hassemble
  obtain ⟨a₂, hout, hassemble⟩ := of_bind hassemble
  obtain ⟨rfl, rfl⟩ := Prod.mk.inj (some_inj.1 hassemble)
  obtain ⟨cur₀, hkept₀, hcur₀, hentry₀, hop₀, hwf₀, hal₀, hbehind₀, hle₀⟩ :=
    truncateDown_kept hold hread hdown
  have hentry := hold.entry
  have hv := hold.version
  -- the bytes to write stay well formed, and the append point stays where it is
  obtain ⟨hwf₁, happ₁⟩ := Loop.foldlM_some_invariant
    (fun _ (a : Assembly) => WF blSplitMerge 1 a.toWrite ∧ a.appendAfter = a₀.appendAfter) hadd
    ⟨hwf₀, rfl⟩ fun pre x post acc acc' _ hacc hstep => by
      obtain ⟨h1, h2⟩ := addUpdate_wf hacc.1 hstep
      exact ⟨h1, h2.trans hacc.2⟩
  obtain ⟨hwf₂, happ₂⟩ := truncateOut_wf hwf₁ hout
  rw [happ₁] at happ₂
  obtain ⟨toOverwrite, hint, g₁, hover, toAppend, hint', g₂, happ, g₃, hnote, rfl⟩ :=
    writeOut_eq_some.1 hwrite
  rw [happ₂] at hint hover hint'
  obtain ⟨m, hm, hmwf, -⟩ := intersect_spec blSplitMerge_lawful blSplitMerge_runs
    (hwf₂.mono (Nat.zero_le 1)) (show 0 < a₀.appendAfter ∨ 0 = 0 from .inr rfl)
  obtain rfl : toOverwrite = m := some_inj.1 (hint.symm.trans hm)
  obtain ⟨m', hm', hmwf', hmget'⟩ := intersect_spec blSplitMerge_lawful blSplitMerge_runs
    (hwf₂.mono (Nat.zero_le 1))
    (show 0 < uint64Max - a₀.appendAfter ∨ a₀.appendAfter = 0 from .inl (by omega))
  obtain rfl : toAppend = m' := some_inj.1 (hint'.symm.trans hm')
  have hbehind : ∀ x ∈ toAppend, a₀.appendAfter ≤ x.off := by
    intro x hx
    have hcov : (get byteOf toAppend x.off).isSome :=
      (get_isSome_iff _ _ _).2 (hmwf'.covered_off hx)
    rw [hmget'] at hcov
    split at hcov
    next hin => exact hin.1
    · cases hcov
  obtain ⟨cur₁, hkept₁, hcur₁, hentry₁, hop₁⟩ := overwriteExtents_kept hs hcount
    (hentry₀.trans hentry) hv hkept₀ hcur₀ hmwf hbehind₀ hover
  obtain ⟨cur₂, hkept₂, hsame₂⟩ := appendExtents_kept hs hcount hkept₁ hbehind happ
  have hsp₂ := appendExtents_spares (s := s) (v := v) happ
  have hentry₂ : g₂.entry = some e := hsp₂.entry.trans (hentry₁.trans (hentry₀.trans hentry))
  obtain ⟨e₃, hentry₃, hsame₃, hopen₃, hbl₃, hop₃, hroll₃, htrans₃⟩ :=
    noteExtents_eq_some hentry₂ hv hnote
  obtain ⟨e₄, hentry₄, hsame₄, hopen₄, hbl₄, hop₄, hroll₄, htrans₄⟩ :=
    noteAppend_eq a₂.appendAfter toAppend hentry₃ (hopen₃ hopen)
  have hdel' : (noteAppend a₂.appendAfter toAppend g₃).op.isDelete = false := by
    rw [hop₄, hop₃, hsp₂.op, hop₁, hop₀, hdel]
  rw [setHinfo, hdel', if_neg Bool.false_ne_true]
  refine ⟨e₄, a₀.appendAfter, !toAppend.isEmpty, cur₂,
    (noteAppend a₂.appendAfter toAppend g₃).hinfo.encode, hentry₄,
    ⟨hsame₄.soid.trans hsame₃.soid, hsame₄.version.trans hsame₃.version⟩, hopen₄, ?_,
    ⟨?_, hkept₂.after_le, ?_⟩, hal₀, fun hempty => ?_⟩
  · simp only [emit, hroll₄, hroll₃]
    rw [hbl₄, hbl₃, happ₂]
  · simp only [emit, hroll₄, hroll₃, htrans₄, htrans₃, applyAll_append]
    exact hkept₂.saved.setattr (stash_ne _ _ _) getHinfoKey _
  · simp only [emit, hroll₄, hroll₃]
    exact hkept₂.cover
  · have hnil : toAppend = [] := by simpa using hempty
    rwa [hsame₂ hnil]

section

-- the entry is open, nothing is recorded or written yet, and the three stages succeed
variable (htemp : env.oid.isTemp = false) (hsoid : e.soid = env.oid) (hv : e.version.version = v)
  (hopen : e.Open) (hharm : Harmless env.sinfo env.oid e.modDesc.bl) (hentry : g.entry = some e)
  (hroll : g.rollbackExtents = []) (htrans : g.transactions s = [])
  (hstash : store ⟨env.oid, some v⟩ = none)
  (h₂ : initObject env (noteCreate (deleteFirst env g)) = some g₂)
  (h₃ : updateAttrs env g₂ = some g₃)
  (hdata : (assemble env read (setAllocHint env (noteAttrs g₃)) >>= fun p =>
    writeOut env p.1 p.2) = some g')
include htemp hsoid hv hopen hharm hentry hroll htrans hstash h₂ h₃ hdata

/-- An operation that removes the object first. -/
theorem rollsBack_deleteFirst (hdel : g.op.deleteFirst = true) : RollsBack env s v store g' := by
  obtain ⟨e', he', hclosed, hbl⟩ := hopen.close (.delete v)
  have hgd : (deleteFirst env g).entry = some e' ∧ (deleteFirst env g).rollbackExtents = [] ∧
      (deleteFirst env g).transactions s =
        [.collectionMoveRename ⟨env.oid, none⟩ ⟨env.oid, some v⟩] ∧
      (deleteFirst env g).hinfo.getTotalLogicalSize env.sinfo = 0 := by
    rw [deleteFirst, if_pos hdel]
    simp only [hentry, emit, modDesc, map_some]
    exact ⟨by rw [he', ← hv]; rfl, hroll, by rw [htrans, hv]; rfl, Nat.zero_mul _⟩
  obtain ⟨hentryd, hrolld, htransd, hsized⟩ := hgd
  have hcreate : noteCreate (deleteFirst env g) = deleteFirst env g := by
    rw [noteCreate]
    split
    · exact modDesc_of_closed hentryd (ObjectModDesc.recordLast_of_closed hclosed _)
    · rfl
  rw [hcreate] at h₂
  obtain ⟨hsp, hcut⟩ := generateMeta_closed (s := s) (v := v) hentryd hclosed (.inr hsized) h₂ h₃
  have hsp' := hsp.trans (generateData_closed (hsp.entry.trans hentryd) hclosed
    (hsp.rollbackExtents.trans hrolld) hcut hdata)
  obtain ⟨ops, hops, hspares⟩ := hsp'.adds
  obtain ⟨undo, hundo, hobj, hgone⟩ := rollback_deleted htemp (by rw [he']; exact hsoid)
    hclosed hharm hstash hspares hbl
  rw [RollsBack, hops, htransd]
  exact ⟨e', undo, hsp'.entry.trans hentryd, hclosed.canLocalRollback, hundo, hobj, hgone⟩

omit hv in
/-- An operation that creates the object. -/
theorem rollsBack_create (hdel : g.op.deleteFirst = false) (hfresh : g.op.isFreshObject = true)
    (habsent : store ⟨env.oid, none⟩ = none) : RollsBack env s v store g' := by
  obtain ⟨e', he', hclosed, hbl⟩ := hopen.close .create
  have hcreate : noteCreate (deleteFirst env g) = g.modDesc (·.create) := by
    rw [deleteFirst_eq hdel, noteCreate, if_pos hfresh]
  have hentryc : (g.modDesc (·.create)).entry = some e' := by
    rw [modDesc, hentry, he']
    rfl
  rw [hcreate] at h₂
  obtain ⟨hsp, hcut⟩ := generateMeta_closed (s := s) (v := v) hentryc hclosed (.inl hfresh) h₂ h₃
  have hsp' := hsp.trans (generateData_closed (hsp.entry.trans hentryc) hclosed
    (hsp.rollbackExtents.trans hroll) hcut hdata)
  obtain ⟨ops, hops, hspares⟩ := hsp'.adds
  obtain ⟨undo, hundo, hobj, hgone⟩ := rollback_created htemp (by rw [he']; exact hsoid)
    hclosed hharm hstash hspares hbl
  have htransc : (g.modDesc (·.create)).transactions s = [] := htrans
  rw [RollsBack, hops, htransc, habsent]
  exact ⟨e', undo, hsp'.entry.trans hentryc, hclosed.canLocalRollback, hundo, hobj, hgone⟩

/-- An operation that keeps the object. -/
theorem rollsBack_keep (hnoted : Noted env s store obj g)
    (hkey : getHinfoKey ∈ g.xattrRollback.map (·.1)) (hdel : g.op.deleteFirst = false)
    (hfresh : g.op.isFreshObject = false)
    (hal : StripeAligned env.sinfo (g.hinfo.getTotalLogicalSize env.sinfo))
    (hmax : g.hinfo.getTotalLogicalSize env.sinfo < uint64Max)
    (hlen : obj.data.length = g.hinfo.totalChunkSize) (hobj : store ⟨env.oid, none⟩ = some obj)
    (hread : WF blSplitMerge 1 read) (hs : s ∈ env.shards) (hcount : s < env.ec.chunkCount) :
    RollsBack env s v store g' := by
  -- nothing is removed or created
  have hinit : g.op.initType = .none := by
    simpa [ObjectOperation.isFreshObject] using hfresh
  have hstart : noteCreate (deleteFirst env g) = g := by
    rw [deleteFirst_eq hdel, noteCreate, hfresh]
    rfl
  rw [hstart] at h₂
  obtain rfl := (initObject_spares (s := s) (v := v) h₂).2 hinit
  -- the attributes
  obtain ⟨xattrs, hobj₃, hattrs, hmono⟩ := updateAttrs_kept hnoted h₃
  obtain ⟨hsp₃, hhinfo₃⟩ := updateAttrs_spares (s := s) h₃
  have hkey₃ := hmono _ hkey
  have hnote : noteAttrs g₃ = g₃.modDesc (·.setattrs g₃.xattrRollback) := by
    rw [noteAttrs, if_neg]
    intro hnil
    rw [List.isEmpty_iff.1 hnil] at hkey₃
    cases hkey₃
  obtain ⟨e₁, he₁⟩ : ∃ e₁ : PgLogEntry Soid,
    e₁ = { e with modDesc := e.modDesc.setattrs g₃.xattrRollback } := ⟨_, rfl⟩
  have hmod : e₁.modDesc = { e.modDesc with
      bl := e.modDesc.bl ++ [.setattrs g₃.xattrRollback] } := by
    rw [he₁]
    exact ObjectModDesc.record_of_open hopen _
  have hopen₁ : e₁.Open :=
    ⟨by rw [hmod]; exact hopen.canLocalRollback, by rw [hmod]; exact hopen.notCompleted⟩
  obtain ⟨hsp₄, hhinfo₄⟩ := setAllocHint_spares (s := s) (v := v) env (noteAttrs g₃)
  have hentry₄ : (setAllocHint env (noteAttrs g₃)).entry = some e₁ := by
    rw [hsp₄.entry, hnote, modDesc, hsp₃.entry, hentry, he₁]
    rfl
  have hop₄ : (setAllocHint env (noteAttrs g₃)).op = g₂.op := by
    rw [hsp₄.op, hnote]
    exact hsp₃.op
  have hhinfo : (setAllocHint env (noteAttrs g₃)).hinfo = g₂.hinfo := by
    rwa [hhinfo₄, hnote]
  have hrun₄ : store.applyAll ((setAllocHint env (noteAttrs g₃)).transactions s) =
      store.applyAll (g₃.transactions s) := by
    rw [setAllocHint_apply, hnote]
    rfl
  have hstash₃ : store.applyAll (g₃.transactions s) ⟨env.oid, some v⟩ = none := by
    obtain ⟨ops, hops, hspares⟩ := hsp₃.adds
    rw [hops, htrans, nil_append, store.applyAll_of_spares hspares, hstash]
  have hv₁ : e₁.version.version = v := by
    rwa [he₁]
  -- the data
  obtain ⟨e', after, appended, cur, val, hentry', hsame', hopen', hbl', hkept', hal', happ'⟩ :=
    generateData_kept ⟨hentry₄, hv₁, by rw [hop₄, hfresh],
        by rw [hsp₄.rollbackExtents, hnote]; exact hsp₃.rollbackExtents.trans hroll,
        by rw [hhinfo]; exact hal, by rw [hhinfo]; exact hlen, by rw [hrun₄]; exact hobj₃,
        by rw [hrun₄]; exact hstash₃⟩ hopen₁
      (by rw [hop₄, ObjectOperation.isDelete, hdel, Bool.and_false]) (by rw [hhinfo]; exact hmax)
      hread hs hcount hdata
  obtain ⟨undo, hundo, hrestored, hgone⟩ := rollsBack_records htemp
    (hsame'.soid.trans (by rw [he₁]; exact hsoid)) hopen'.canLocalRollback hharm
    (by rw [hbl', hmod]) (hattrs.set (fun attr hattr => by
      rw [mem_singleton.1 hattr]
      exact hkey₃)) hkept' hal' happ'
  exact ⟨e', undo, hentry', hopen'.canLocalRollback, hundo, hrestored.trans hobj.symm, hgone⟩

end

/-- A shard before the operation, as the log entry, the object context and the shard
hashes describe it.  An operation that neither removes nor creates the object finds
it; one that creates it without removing it first finds none. -/
structure ShardBefore (env : GenEnv) (op : ObjectOperation) (e : PgLogEntry Soid)
    (obc : Option ObjectContext) (hinfo : HashInfo) (store : Store) : Prop where
  soid : e.soid = env.oid
  temp : env.oid.isTemp = false
  records : e.modDesc = {}
  aligned : env.sinfo.LogicalOffsetIsStripeAligned (hinfo.getTotalLogicalSize env.sinfo)
  size_fits : hinfo.getTotalLogicalSize env.sinfo < uint64Max
  stash : store ⟨env.oid, some e.version.version⟩ = none
  existing : op.isNone → ∃ obj, store ⟨env.oid, none⟩ = some obj ∧
    obj.data.length = hinfo.totalChunkSize ∧ obj.xattrs getHinfoKey = some hinfo.encode ∧
    ∀ c, obc = some c → ∀ name, name ≠ getHinfoKey → c.attrCache.lookup name = obj.xattrs name
  absent : op.isFreshObject → op.deleteFirst = false → store ⟨env.oid, none⟩ = none

end Whole

/-- **Rollback restores the shard.**  If the generator succeeds for an operation with a
log entry, the entry can be rolled back, and applying the transaction of a shard and
then the rollback gives back the object as it was, with no stash left. -/
theorem rollback_restores {op : ObjectOperation} {e : PgLogEntry Soid}
    {obc : Option ObjectContext} {hinfo : HashInfo} {store : Store}
    (h : ShardBefore env op e obc hinfo store) {read : ExtentMap} (hread : WF blSplitMerge 1 read)
    {g : Gen} (hrun : generateTransactions env op (some e) obc hinfo read = some g)
    (hs : s ∈ env.shards) (hcount : s < env.ec.chunkCount) :
    RollsBack env s e.version.version store g := by
  obtain ⟨gm, hmeta, hdata⟩ := of_bind hrun
  obtain ⟨hobc, g₀, e₁, g₁, g₂, g₃, hsame, hopen, hharm, hop₀, hentry₀, hobc₀, hhinfo₀, hx₀, hroll₀,
    htrans₀, h₁, h₂, h₃, rfl⟩ := generateMeta_eq_some h.records hmeta
  obtain ⟨hentry₁, -, hroll₁, htrans₁, hor⟩ := truncateToZero_eq_some h₁
  have hsoid : e₁.soid = env.oid := hsame.soid.trans h.soid
  have hv : e₁.version.version = e.version.version := congrArg EVersion.version hsame.version
  rw [h.soid] at hharm
  have htrans : g₁.transactions s = [] := by rw [htrans₁, htrans₀]
  cases hdel : g₁.op.deleteFirst with
  | true =>
    exact rollsBack_deleteFirst h.temp hsoid hv hopen hharm (hentry₁.trans hentry₀)
      (hroll₁.trans hroll₀) htrans h.stash h₂ h₃ hdata hdel
  | false =>
    have hg₁ : g₁ = g₀ := hor.resolve_right (by rw [hdel]; exact Bool.false_ne_true)
    subst hg₁
    rw [hop₀] at hdel
    cases hfresh : op.isFreshObject with
    | true =>
      exact rollsBack_create h.temp hsoid hopen hharm hentry₀ hroll₀ htrans h.stash h₂ h₃ hdata
        (hop₀ ▸ hdel) (hop₀ ▸ hfresh) (h.absent hfresh hdel)
    | false =>
      have hnone : op.isNone := by
        have hinit : op.initType = .none := by
          simpa [ObjectOperation.isFreshObject] using hfresh
        rw [ObjectOperation.isNone, hinit, hdel]
        rfl
      obtain ⟨obj, hobj, hlen, hkey, hcache⟩ := h.existing hnone
      obtain ⟨c, hc⟩ := isSome_iff_exists.1 hobc
      have hnoted : Noted env s store obj g₁ := by
        refine ⟨⟨obj.xattrs, by rw [htrans]; exact hobj, fun attr hattr => ?_, fun _ _ => rfl⟩,
          ⟨c, hobc₀.trans hc, fun name hname => hcache c hc name fun heq => ?_⟩, hentry₀ ▸ rfl⟩
        · rw [hx₀, mem_singleton] at hattr
          rw [hattr, hkey]
        · rw [hx₀, heq] at hname
          exact hname (mem_singleton_self _)
      exact rollsBack_keep h.temp hsoid hv hopen hharm hentry₀ hroll₀ htrans h.stash h₂ h₃ hdata
        hnoted (by rw [hx₀]; exact mem_singleton_self _) (hop₀ ▸ hdel) (hop₀ ▸ hfresh)
        (hhinfo₀ ▸ h.aligned) (hhinfo₀ ▸ h.size_fits) (hhinfo₀ ▸ hlen) hobj hread hs hcount

/-- The first shard of an object of one stripe. -/
def halvesStore : Store := fun o =>
  if o = ⟨⟨1, "obj"⟩, none⟩ then
    some ⟨[1, 1], fun name => if name = getHinfoKey then some halvesHinfo.encode else none⟩
  else none

theorem rollback_restores_zero :
    ∃ g, generateTransactions halvesEnv { bufferUpdates := [⟨0, 1, .zero 1⟩] } (some halvesEntry)
        (some ⟨[]⟩) halvesHinfo [⟨0, 4, [1, 1, 1, 1]⟩] = some g ∧
      RollsBack halvesEnv 0 2 halvesStore g := by
  have hsome : (generateTransactions halvesEnv { bufferUpdates := [⟨0, 1, .zero 1⟩] }
      (some halvesEntry) (some ⟨[]⟩) halvesHinfo [⟨0, 4, [1, 1, 1, 1]⟩]).isSome := by
    decide +kernel
  obtain ⟨g, hg⟩ := isSome_iff_exists.1 hsome
  refine ⟨g, hg, rollback_restores ⟨rfl, rfl, rfl, by decide, by decide, rfl,
    fun _ => ⟨_, if_pos rfl, rfl, by simp only [if_true], fun c hc name hname => ?_⟩,
      fun h => ?_⟩ ?_ hg
    (by decide) (by decide)⟩
  · cases hc
    exact (if_neg hname).symm
  · exact absurd h Bool.false_ne_true
  · refine ⟨pairwise_singleton _ _, fun e he => ?_⟩
    rw [mem_singleton.1 he]
    exact ⟨by decide, rfl⟩

end Ceph.Osd
