import Ceph.Osd.ObjectModDesc
import Ceph.Osd.PGTransaction

/-!
# Planning and generating erasure coded writes

`get_write_plan` and `generate_transactions` of `osd/ECTransaction.h` and
`osd/ECTransaction.cc`, for one object of a transaction.  The plan says which
stripes have to be read before the write and which will be written; the generator
builds the transaction of every shard, the undo records of the log entry and the
new shard hashes.

An assertion that fails is `none`.  `Gen` holds the variables of the generator;
each of its blocks is one function on them, in the order of the source.
-/

namespace Ceph.Osd

open IntervalMap

/-- `bl_split_merge` -/
def blSplitMerge : Splitter Buffer where
  length := List.length
  split := fun offset len bl => (bl.drop offset).take len
  canMerge := fun _ _ => true
  merge := fun left right => left ++ right

/-- `extent_map` -/
abbrev ExtentMap : Type := IntervalMap Buffer

/-- `extent_set` -/
abbrev ExtentSet : Type := IntervalSet

/-! ## The plan -/

/-- What `get_write_plan` computes for an object.  The object has an entry in the
map `to_read` of the source if and only if `toRead` is not empty. -/
structure WritePlan where
  invalidatesCache : Bool
  toRead : ExtentSet
  willWrite : ExtentSet
  hinfo : HashInfo

/-- The variables of `get_write_plan`. -/
structure Planned where
  projectedSize : ℕ
  toRead : ExtentSet
  willWrite : ExtentSet

variable (sinfo : StripeInfo)

/-- The size the plan starts from. -/
def startSize (op : ObjectOperation) (hinfo : HashInfo) (getHinfo : Soid → HashInfo) : ℕ :=
  match op.hasSource with
  | some source => (getHinfo source).getProjectedTotalLogicalSize sinfo
  | none => if op.deleteFirst then 0 else hinfo.getProjectedTotalLogicalSize sinfo

variable (truncate : Option (ℕ × ℕ))

/-- The plan for truncating to the lowest size. -/
def planTruncate (size : ℕ) : Option Planned :=
  match truncate with
  | none => some ⟨size, [], []⟩
  | some (first, _) =>
    if first < size then
      if ¬ sinfo.LogicalOffsetIsStripeAligned first then do
        let toRead ← IntervalSet.unionInsert (sinfo.logicalToPrevStripeOffset first)
          sinfo.stripeWidth []
        let willWrite ← IntervalSet.unionInsert (sinfo.logicalToPrevStripeOffset first)
          sinfo.stripeWidth []
        some ⟨sinfo.logicalToNextStripeOffset first, toRead, willWrite⟩
      else some ⟨sinfo.logicalToNextStripeOffset first, [], []⟩
    else some ⟨size, [], []⟩

/-- One turn of the loop that fills `raw_write_set`. -/
def rawWriteStep (raw : ExtentSet) (extent : Extent BufferUpdate) : Option ExtentSet :=
  match extent.val with
  | .cloneRange .. => none
  | _ => IntervalSet.insertNew extent.off extent.len raw

/-- `raw_write_set` -/
def rawWriteSet (updates : IntervalMap BufferUpdate) : Option ExtentSet :=
  updates.foldlM rawWriteStep []

/-- Read the stripe `[start, finish)`, if `needed`. -/
def planRead (projectedSize : ℕ) (needed : Bool) (start finish : ℕ) (toRead : ExtentSet) :
    Option ExtentSet :=
  if needed then do
    assert (finish ≤ projectedSize)
    assert (finish - start = sinfo.stripeWidth)
    IntervalSet.unionInsert start sinfo.stripeWidth toRead
  else some toRead

/-- One turn of the loop over the raw write set. -/
def planExtent (plan : Planned) (extent : Extent ℕ) : Option Planned := do
  let headStart := min (sinfo.logicalToPrevStripeOffset extent.off) plan.projectedSize
  let headFinish := sinfo.logicalToNextStripeOffset extent.off
  let toRead ← planRead sinfo plan.projectedSize
    (headStart ≠ headFinish ∧ headStart < plan.projectedSize) headStart headFinish plan.toRead
  let tailStart := sinfo.logicalToPrevStripeOffset extent.stop
  let tailFinish := sinfo.logicalToNextStripeOffset extent.stop
  let toRead ← planRead sinfo plan.projectedSize
    (tailStart ≠ tailFinish ∧ (headStart = headFinish ∨ tailStart ≠ headStart) ∧
      tailStart < plan.projectedSize) tailStart tailFinish toRead
  if headStart ≠ tailFinish then do
    assert (sinfo.LogicalOffsetIsStripeAligned (tailFinish - headStart))
    let willWrite ← IntervalSet.unionInsert headStart (tailFinish - headStart) plan.willWrite
    some ⟨max plan.projectedSize tailFinish, toRead, willWrite⟩
  else do
    assert (tailFinish ≤ plan.projectedSize)
    some ⟨plan.projectedSize, toRead, plan.willWrite⟩

/-- The plan for truncating out to the last size. -/
def planTruncateOut (plan : Planned) : Option Planned :=
  match truncate with
  | none => some plan
  | some (_, second) =>
    if second > plan.projectedSize then do
      let truncatingTo := sinfo.logicalToNextStripeOffset second
      let willWrite ← IntervalSet.unionInsert plan.projectedSize
        (truncatingTo - plan.projectedSize) plan.willWrite
      some ⟨truncatingTo, plan.toRead, willWrite⟩
    else some plan

/-- `get_write_plan` -/
def getWritePlan (op : ObjectOperation) (hinfo : HashInfo) (getHinfo : Soid → HashInfo) :
    Option WritePlan := do
  let plan ← planTruncate sinfo op.truncate (startSize sinfo op hinfo getHinfo)
  let raw ← rawWriteSet op.bufferUpdates
  let plan ← raw.foldlM (planExtent sinfo) plan
  let plan ← planTruncateOut sinfo op.truncate plan
  let hinfo ← hinfo.setProjectedTotalLogicalSize sinfo plan.projectedSize
  assert (plan.toRead = [] ∨ op.hasSource = none)
  some ⟨op.hasSource.isSome, plan.toRead, plan.willWrite, hinfo⟩

/-! ## The generator -/

/-- What is used of an `ObjectContext`.  Keys are distinct. -/
structure ObjectContext where
  attrCache : List (String × Buffer)

/-- What `generate_transactions` is given besides the operation. -/
structure GenEnv where
  sinfo : StripeInfo
  ec : ErasureCodeInterface
  oid : Soid
  /-- The keys of `*transactions`. -/
  shards : List ℕ
  /-- `plan.hash_infos`, looked up for the source of a clone or rename. -/
  hashInfos : Soid → Option HashInfo
  /-- `obc_map`, looked up for the source of a clone or rename. -/
  obcMap : Soid → Option ObjectContext

/-- The variables of `generate_transactions`. -/
structure Gen where
  op : ObjectOperation
  entry : Option (PgLogEntry Soid)
  obc : Option ObjectContext
  hinfo : HashInfo
  xattrRollback : OldAttrs := []
  rollbackExtents : List (ℕ × ℕ) := []
  written : ExtentMap := []
  /-- The transaction of every shard; only those of `GenEnv.shards` are sent. -/
  transactions : ℕ → List StoreOp := fun _ => []
  tempAdded : List Soid := []
  tempRemoved : List Soid := []

namespace Gen

/-- Add the operations `ops s` to the transaction of every shard `s`. -/
def emit (g : Gen) (ops : ℕ → List StoreOp) : Gen :=
  { g with transactions := fun s => g.transactions s ++ ops s }

/-- Change the undo records of the log entry, if there is one. -/
def modDesc (g : Gen) (f : ObjectModDesc → ObjectModDesc) : Gen :=
  { g with entry := g.entry.map fun e => { e with modDesc := f e.modDesc } }

end Gen

/-- `std::map::insert`, which keeps what is there. -/
def OldAttrs.insertNew (attrs : OldAttrs) (more : OldAttrs) : OldAttrs :=
  attrs ++ more.filter fun attr => attr.1 ∉ attrs.map (·.1)

/-- The values of a cache, as old values. -/
def ObjectContext.oldAttrs (obc : ObjectContext) : OldAttrs :=
  obc.attrCache.map fun attr => (attr.1, some attr.2)

variable (env : GenEnv) (g : Gen)

/-- The temporary objects a transaction adds or removes. -/
def noteTemp : Gen :=
  if env.oid.isTemp then
    if g.op.isFreshObject then { g with tempAdded := env.oid :: g.tempAdded }
    else if g.op.isDelete then { g with tempRemoved := env.oid :: g.tempRemoved }
    else g
  else g

/-- The snapshots of the log entry, and their undo record. -/
def noteSnaps : Gen :=
  match g.entry, g.op.updatedSnaps with
  | some e, some (oldSnaps, newSnaps) =>
    { g with entry := some { e with
        snaps := if e.isModify then newSnaps else e.snaps
        modDesc := e.modDesc.updateSnaps oldSnaps } }
  | _, _ => g

/-- Truncating to zero is removing and creating again. -/
def truncateToZero : Option Gen :=
  match g.op.truncate with
  | some (0, second) =>
    if g.op.isNone then do
      assert (0 = second)
      assert (g.entry.isSome)
      assert (g.obc.isSome)
      some { g with op := { g.op with
        truncate := if 0 ≠ second then some (second, second) else none
        deleteFirst := true
        initType := .create
        attrUpdates := match g.obc with
          | some obc => OldAttrs.insertNew g.op.attrUpdates obc.oldAttrs
          | none => g.op.attrUpdates } }
    else some g
  | _ => some g

/-- Stash the object, or remove it if no log entry needs it. -/
def deleteFirst (env : GenEnv) (g : Gen) : Gen :=
  if g.op.deleteFirst then
    let g := { g with
      op := { g.op with attrUpdates := g.op.attrUpdates.filter (·.2.isSome) }
      xattrRollback := match g.obc with
        | some obc => g.xattrRollback.insertNew obc.oldAttrs
        | none => g.xattrRollback
      obc := g.obc.map fun _ => ⟨[]⟩ }
    let g := match g.entry with
      | some e => (g.modDesc (·.rmobject e.version.version)).emit fun _ =>
        [.collectionMoveRename ⟨env.oid, none⟩ ⟨env.oid, some e.version.version⟩]
      | none => g.emit fun _ => [.remove ⟨env.oid, none⟩]
    { g with hinfo := g.hinfo.clear }
  else g

/-- The undo record of a creation. -/
def noteCreate : Gen :=
  if g.op.isFreshObject then g.modDesc (·.create) else g

/-- Create the object, empty or from its source. -/
def initObject : Option Gen :=
  match g.op.initType with
  | .none => some g
  | .create => some (g.emit fun _ => [.touch ⟨env.oid, none⟩])
  | .clone source => do
    let g := g.emit fun _ => [.clone ⟨source, none⟩ ⟨env.oid, none⟩]
    let shinfo ← env.hashInfos source
    let g := { g with hinfo := g.hinfo.updateTo shinfo }
    match g.obc with
    | some _ => do
      let sobc ← env.obcMap source
      some { g with obc := some sobc }
    | none => some g
  | .rename source => do
    assert (source.isTemp)
    let g := g.emit fun _ => [.collectionMoveRename ⟨source, none⟩ ⟨env.oid, none⟩]
    let shinfo ← env.hashInfos source
    let g := { g with hinfo := g.hinfo.updateTo shinfo }
    match g.obc with
    | some _ => do
      assert ((env.obcMap source).isNone)
      some { g with obc := some ⟨[]⟩ }
    | none => some g

/-- `attr_cache[name] = val`, or the removal of `name`. -/
def ObjectContext.update (obc : ObjectContext) (name : String) (val : Option Buffer) :
    ObjectContext :=
  ⟨obc.attrCache.filter (·.1 ≠ name) ++ (val.map fun bl => (name, bl)).toList⟩

/-- One turn of the loop over `attr_updates`. -/
def updateAttr (attr : String × Option Buffer) : Option Gen :=
  let g := match attr.2 with
    | some _ => g
    | none => g.emit fun _ => [.rmattr ⟨env.oid, none⟩ attr.1]
  match g.obc with
  | some obc => some { g with
      xattrRollback := if g.entry.isSome then
          g.xattrRollback.insertNew [(attr.1, obc.attrCache.lookup attr.1)]
        else g.xattrRollback
      obc := some (obc.update attr.1 attr.2) }
  | none => do
    assert (g.entry.isNone)
    some g

/-- Set and remove attributes. -/
def updateAttrs : Option Gen :=
  if g.op.attrUpdates.isEmpty then some g
  else do
    let toSet := g.op.attrUpdates.filterMap fun attr => attr.2.map fun val => (attr.1, val)
    let g ← g.op.attrUpdates.foldlM (updateAttr env) g
    let g := g.emit fun _ => [.setattrs ⟨env.oid, none⟩ toSet]
    assert (g.xattrRollback ≠ [])
    some g

/-- The undo record of the attributes. -/
def noteAttrs : Gen :=
  if g.xattrRollback.isEmpty then g else g.modDesc (·.setattrs g.xattrRollback)

/-- Pass on the allocation hint. -/
def setAllocHint (env : GenEnv) (g : Gen) : Gen :=
  match g.op.allocHint with
  | some hint => g.emit fun _ => [.setAllocHint ⟨env.oid, none⟩
      (env.sinfo.logicalToNextChunkOffset hint.expectedObjectSize)
      (env.sinfo.logicalToNextChunkOffset hint.expectedWriteSize) hint.flags]
  | none => g

/-- What is to be written, and where the object ends: `newSize` so far, and
`appendAfter` is where appending begins. -/
structure Assembly where
  toWrite : ExtentMap
  newSize : ℕ
  appendAfter : ℕ
  fadviseFlags : UInt32 := 0

/-- The part of truncating down that changes what is to be written: the unaligned
part of the last stripe is zeroed, everything after it is dropped. -/
def cutToWrite (first : ℕ) (toWrite : ExtentMap) : Option Assembly :=
  let newSize := sinfo.logicalToNextStripeOffset first
  if newSize ≠ first then do
    let bl := zeros (newSize - first)
    let toWrite ← IntervalMap.insert blSplitMerge first bl.length bl toWrite
    some ⟨erase blSplitMerge newSize (uint64Max - newSize) toWrite, newSize,
      sinfo.logicalToPrevStripeOffset first, 0⟩
  else some ⟨erase blSplitMerge newSize (uint64Max - newSize) toWrite, newSize, newSize, 0⟩

/-- Save what a truncation takes. -/
def saveTruncated (first origSize : ℕ) : Option Gen :=
  match g.entry with
  | some e =>
    if ¬ g.op.isFreshObject then do
      let restoreFrom := env.sinfo.logicalToPrevChunkOffset first
      let restoreLen ← env.sinfo.alignedLogicalOffsetToChunkOffset
        (origSize - env.sinfo.logicalToPrevStripeOffset first)
      assert (g.rollbackExtents = [])
      some ({ g with rollbackExtents := [(restoreFrom, restoreLen)] }.emit fun _ =>
        [.touch ⟨env.oid, some e.version.version⟩,
          .cloneRange ⟨env.oid, none⟩ ⟨env.oid, some e.version.version⟩ restoreFrom restoreLen
            restoreFrom])
    else some g
  | none => some g

/-- Truncate down to the lowest size. -/
def truncateDown (toWrite : ExtentMap) : Option (Gen × Assembly) :=
  let origSize := g.hinfo.getTotalLogicalSize env.sinfo
  match g.op.truncate with
  | none => some (g, ⟨toWrite, origSize, origSize, 0⟩)
  | some (first, _) =>
    if first < origSize then do
      assert (¬ g.op.isFreshObject)
      let a ← cutToWrite env.sinfo first toWrite
      let g ← saveTruncated env g first origSize
      let size ← env.sinfo.alignedLogicalOffsetToChunkOffset a.newSize
      some (g.emit fun _ => [.truncate ⟨env.oid, none⟩ size], a)
    else some (g, ⟨toWrite, origSize, origSize, 0⟩)

/-- The bytes of a buffer update, and its flags. -/
def updateData (extent : Extent BufferUpdate) : Option (Buffer × UInt32) :=
  match extent.val with
  | .write buffer fadviseFlags => some (buffer, fadviseFlags)
  | .zero _ => some (zeros extent.len, 0)
  | .cloneRange .. => none

/-- One turn of the loop over the buffer updates: a gap after the end is filled
with zeros, and so is the rest of the last stripe. -/
def addUpdate (a : Assembly) (extent : Extent BufferUpdate) : Option Assembly := do
  let (bl, flags) ← updateData extent
  assert (0 < extent.len)
  assert (extent.off > a.newSize → extent.off > a.appendAfter)
  let off := min extent.off a.newSize
  let bl := zeros (extent.off - off) ++ bl
  let len := extent.len + (extent.off - off)
  let tail :=
    if ¬ sinfo.LogicalOffsetIsStripeAligned extent.stop ∧ extent.stop > a.appendAfter then
      sinfo.logicalToNextStripeOffset extent.stop - extent.stop
    else 0
  let toWrite ← IntervalMap.insert blSplitMerge off (len + tail) (bl ++ zeros tail) a.toWrite
  some { a with
    toWrite := toWrite
    newSize := max a.newSize (extent.stop + tail)
    fadviseFlags := a.fadviseFlags ||| flags }

/-- Truncate out to the last size. -/
def truncateOut (a : Assembly) : Option Assembly :=
  match truncate with
  | none => some a
  | some (_, second) =>
    if second > a.newSize then do
      assert (second > a.appendAfter)
      let truncateTo := sinfo.logicalToNextStripeOffset second
      let zeroes := truncateTo - a.newSize
      let toWrite ← IntervalMap.insert blSplitMerge a.newSize zeroes (zeros zeroes) a.toWrite
      some { a with toWrite := toWrite, newSize := truncateTo }
    else some a

/-- The shard hashes after a write at `offset`: they grow if it appends. -/
def appendHinfo (hinfo : HashInfo) (offset : ℕ) (buffers : ChunkMap) : Option HashInfo :=
  if offset ≥ hinfo.getTotalLogicalSize env.sinfo then do
    assert (offset = hinfo.getTotalLogicalSize env.sinfo)
    let size ← env.sinfo.alignedLogicalOffsetToChunkOffset offset
    hinfo.append env.ec size buffers
  else some hinfo

/-- `encode_and_write` -/
def encodeAndWrite (offset : ℕ) (bl : Buffer) (flags : UInt32) (g : Gen) : Option Gen := do
  assert (env.sinfo.LogicalOffsetIsStripeAligned offset)
  assert (env.sinfo.LogicalOffsetIsStripeAligned bl.length)
  assert (bl.length ≠ 0)
  let (r, buffers) ← encode env.sinfo env.ec bl (Finset.range env.ec.chunkCount)
  assert (r = 0)
  let written ← IntervalMap.insert blSplitMerge offset bl.length bl g.written
  let hinfo ← appendHinfo env g.hinfo offset buffers
  assert (∀ s ∈ env.shards, (buffers s).isSome)
  some ({ g with written := written, hinfo := hinfo }.emit fun s =>
    (if offset ≥ g.hinfo.getTotalLogicalSize env.sinfo then
      [StoreOp.setAllocHint ⟨env.oid, none⟩ 0 0 (1 ||| 16)] else []) ++
    [StoreOp.write ⟨env.oid, none⟩ (env.sinfo.logicalToPrevChunkOffset offset) (buffers.at s).length
      (buffers.at s) flags])

/-- Save an extent that is about to be overwritten. -/
def saveExtent (extent : Extent Buffer) : Option Gen :=
  match g.entry with
  | some e => do
    let restoreFrom ← env.sinfo.alignedLogicalOffsetToChunkOffset extent.off
    let restoreLen ← env.sinfo.alignedLogicalOffsetToChunkOffset extent.len
    let stash : Goid := ⟨env.oid, some e.version.version⟩
    some ({ g with rollbackExtents := g.rollbackExtents ++ [(restoreFrom, restoreLen)] }.emit
      fun _ => (if g.rollbackExtents.isEmpty then [StoreOp.touch stash] else []) ++
      [StoreOp.cloneRange ⟨env.oid, none⟩ stash restoreFrom restoreLen restoreFrom])
  | none => some g

/-- One turn of the loop over the extents to overwrite. -/
def overwriteExtent (appendAfter : ℕ) (flags : UInt32) (g : Gen) (extent : Extent Buffer) :
    Option Gen := do
  assert (extent.stop ≤ appendAfter)
  assert (env.sinfo.LogicalOffsetIsStripeAligned extent.off)
  assert (env.sinfo.LogicalOffsetIsStripeAligned extent.len)
  let g ← saveExtent env g extent
  encodeAndWrite env extent.off extent.val flags g

/-- One turn of the loop over the extents to append. -/
def appendExtent (flags : UInt32) (g : Gen) (extent : Extent Buffer) : Option Gen := do
  assert (env.sinfo.LogicalOffsetIsStripeAligned extent.off)
  assert (env.sinfo.LogicalOffsetIsStripeAligned extent.len)
  encodeAndWrite env extent.off extent.val flags g

/-- The undo record of what was overwritten or truncated, and the size in the
shard hashes, which lose their checksums. -/
def noteExtents (newSize : ℕ) (g : Gen) : Option Gen :=
  match g.entry with
  | some e =>
    if g.rollbackExtents ≠ [] then do
      let desc ← e.modDesc.rollbackExtents e.version.version g.rollbackExtents
      let size ← env.sinfo.alignedLogicalOffsetToChunkOffset newSize
      some { g with
        entry := some { e with modDesc := desc }
        hinfo := g.hinfo.setTotalChunkSizeClearHash size }
    else do
      assert (g.hinfo.getTotalLogicalSize env.sinfo = newSize)
      some g
  | none => do
    assert (g.hinfo.getTotalLogicalSize env.sinfo = newSize)
    some g

/-- The undo record of what was appended. -/
def noteAppend (appendAfter : ℕ) (toAppend : ExtentMap) (g : Gen) : Gen :=
  if toAppend.isEmpty then g else g.modDesc (·.append appendAfter)

/-- Store the shard hashes with the object. -/
def setHinfo : Gen :=
  if g.op.isDelete then g
  else g.emit fun _ => [.setattr ⟨env.oid, none⟩ getHinfoKey g.hinfo.encode]

/-- The first half of `generate_transactions`: everything but the data. -/
def generateMeta (op : ObjectOperation) (entry : Option (PgLogEntry Soid))
    (obc : Option ObjectContext) (hinfo : HashInfo) : Option Gen := do
  assert (entry.isSome → obc.isSome)
  assert (entry.isNone → env.oid.isTemp)
  let g := noteSnaps (noteTemp env { op := op, entry := entry, obc := obc, hinfo := hinfo })
  let g := { g with xattrRollback := [(getHinfoKey, some hinfo.encode)] }
  let g ← truncateToZero g
  let g ← initObject env (noteCreate (deleteFirst env g))
  assert (¬ g.op.clearOmap)
  assert (g.op.omapHeader = none)
  assert (g.op.omapUpdates = [])
  let g ← updateAttrs env g
  some (setAllocHint env (noteAttrs g))

/-- What is to be written, once the updates are laid over the stripes read. -/
def assemble (partialExtents : ExtentMap) (g : Gen) : Option (Gen × Assembly) := do
  let (g, a) ← truncateDown env g partialExtents
  let a ← g.op.bufferUpdates.foldlM (addUpdate env.sinfo) a
  let a ← truncateOut env.sinfo g.op.truncate a
  some (g, a)

/-- Write what is to be written. -/
def writeOut (a : Assembly) : Option Gen := do
  let toOverwrite ← intersect blSplitMerge 0 a.appendAfter a.toWrite
  let g ← toOverwrite.foldlM (overwriteExtent env a.appendAfter a.fadviseFlags) g
  let toAppend ← intersect blSplitMerge a.appendAfter (uint64Max - a.appendAfter) a.toWrite
  let g ← toAppend.foldlM (appendExtent env a.fadviseFlags) g
  let g ← noteExtents env a.newSize g
  some (setHinfo env (noteAppend a.appendAfter toAppend g))

/-- `generate_transactions`, for one object. -/
def generateTransactions (op : ObjectOperation) (entry : Option (PgLogEntry Soid))
    (obc : Option ObjectContext) (hinfo : HashInfo) (partialExtents : ExtentMap) : Option Gen := do
  let g ← generateMeta env op entry obc hinfo
  let (g, a) ← assemble env partialExtents g
  writeOut env g a

end Ceph.Osd
