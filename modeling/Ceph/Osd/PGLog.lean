import Ceph.Osd.PGMissing

/-!
# The log of a placement group

`pg_log_t`, `PGLog::IndexedLog` and `PGLog` of `osd/PGLog.h` and `osd/PGLog.cc`: the
log with its index, merging of an authoritative log, rewinding, and what the
primary works out about the log of a replica.

Calls of the `LogEntryHandler` are collected in a list, in the order in which they
are made; a caller without a handler ignores them.  The indices by request, the
recovery pointers and the debug copy of the keys are left out, and so are the
statistics, hit sets, purged snaps and user versions that are copied between infos
and not looked at here.
-/

namespace Ceph.Osd

variable {O : Type} (e : PgLogEntry O)

/-- `object_is_indexed()` -/
def PgLogEntry.objectIsIndexed : Bool := !e.isError

/-- A call of the `LogEntryHandler`. -/
inductive HandlerCall (O : Type) where
  | rollback (entry : PgLogEntry O)
  | rollforward (entry : PgLogEntry O)
  | trim (entry : PgLogEntry O)
  | remove (hoid : O)
  | tryStash (hoid : O) (v : ℕ)
  deriving DecidableEq

/-- `pg_info_t`, as far as it is looked at. -/
structure PgInfo (O : Type) where
  lastUpdate : EVersion
  lastComplete : EVersion
  logTail : EVersion
  lastBackfill : O
  deriving DecidableEq

/-! ## `pg_log_t` -/

/-- `pg_log_t` -/
structure PgLog (O : Type) where
  head : EVersion := 0
  tail : EVersion := 0
  canRollbackTo : EVersion := 0
  rollbackInfoTrimmedTo : EVersion := 0
  log : List (PgLogEntry O) := []

namespace PgLog

/-- `null()` -/
def null (log : PgLog O) : Bool := log.head.version = 0 && log.head.epoch = 0

/-- `split_out_child`: the entries of the objects that fall into the child are
moved to its log. -/
def splitOutChild (log : PgLog O) (inChild : O → Bool) : PgLog O × PgLog O :=
  ({ log with log := log.log.filter fun e => !inChild e.soid },
   { log with log := log.log.filter fun e => inChild e.soid })

/-- `pg_log_t::rewind_from_head`: the log that is left and the divergent entries. -/
def rewindFromHead (log : PgLog O) (newhead : EVersion) :
    Option (PgLog O × List (PgLogEntry O)) := do
  assert (log.tail ≤ newhead)
  -- entries are taken off the end by the number of their version alone
  let divergent := log.log.rtakeWhile fun p => newhead.version < p.version.version
  assert (∀ p ∈ divergent, newhead < p.version)
  some
    ({ log with
        head := newhead
        canRollbackTo := if newhead < log.canRollbackTo then newhead else log.canRollbackTo
        rollbackInfoTrimmedTo :=
          if newhead < log.rollbackInfoTrimmedTo then newhead else log.rollbackInfoTrimmedTo
        log := log.log.rdropWhile fun p => newhead.version < p.version.version }, divergent)

end PgLog

/-! ## `IndexedLog` -/

/-- `PGLog::IndexedLog`: `objects` is the index by object, and `riter` the number of
entries after the one `rollback_info_trimmed_to_riter` points to. -/
structure IndexedLog (O : Type) extends PgLog O where
  objects : O → Option (PgLogEntry O) := fun _ => none
  riter : ℕ := 0

namespace IndexedLog

variable [DecidableEq O] (log : IndexedLog O)

/-- `index()`, from an empty index. -/
def indexAll (entries : List (PgLogEntry O)) : O → Option (PgLogEntry O) :=
  entries.foldl (fun objects i =>
    if i.objectIsIndexed then Function.update objects i.soid (some i) else objects) fun _ => none

/-- `index(e)` -/
def index : IndexedLog O :=
  if e.objectIsIndexed then
    match log.objects e.soid with
    | none => { log with objects := Function.update log.objects e.soid (some e) }
    | some old =>
      if old.version < e.version then
        { log with objects := Function.update log.objects e.soid (some e) }
      else log
  else log

/-- `unindex(e)` -/
def unindex : IndexedLog O :=
  match log.objects e.soid with
  | none => log
  | some old =>
    if old.version = e.version then
      { log with objects := Function.update log.objects e.soid none }
    else log

/-- `reset_rollback_info_trimmed_to_riter` -/
def resetRiter (log : PgLog O) : ℕ :=
  (log.log.rtakeWhile fun p => log.rollbackInfoTrimmedTo < p.version).length

/-- The constructor from a `pg_log_t`. -/
def ofLog (log : PgLog O) : IndexedLog O :=
  { log with objects := indexAll log.log, riter := resetRiter log }

section

omit [DecidableEq O]

/-- `advance_can_rollback_to`, with the entries `f` is called on. -/
def advanceCanRollbackTo (upTo : EVersion) : IndexedLog O × List (PgLogEntry O) :=
  let canRollbackTo := if log.canRollbackTo < upTo then upTo else log.canRollbackTo
  let trimmedTo := if log.rollbackInfoTrimmedTo < upTo then upTo else log.rollbackInfoTrimmedTo
  let passed := (log.log.drop (log.log.length - log.riter)).takeWhile fun p => p.version ≤ trimmedTo
  ({ log with
      canRollbackTo := canRollbackTo
      rollbackInfoTrimmedTo := trimmedTo
      riter := log.riter - passed.length }, passed)

/-- `trim_rollback_info_to` -/
def trimRollbackInfoTo (upTo : EVersion) : IndexedLog O × List (HandlerCall O) :=
  let (log, passed) := log.advanceCanRollbackTo upTo
  (log, passed.map .trim)

/-- `roll_forward_to` -/
def rollForwardTo (upTo : EVersion) : IndexedLog O × List (HandlerCall O) :=
  let (log, passed) := log.advanceCanRollbackTo upTo
  (log, passed.map .rollforward)

/-- `skip_can_rollback_to_to_head` -/
def skipCanRollbackToToHead : IndexedLog O := (log.advanceCanRollbackTo log.head).1

end

/-- `IndexedLog::rewind_from_head` -/
def rewindFromHead (newhead : EVersion) : Option (IndexedLog O × List (PgLogEntry O)) := do
  let (log, divergent) ← log.toPgLog.rewindFromHead newhead
  some (ofLog log, divergent)

/-- `claim_log_and_clear_rollback_info` -/
def claimLogAndClearRollbackInfo (o : PgLog O) : Option (IndexedLog O) := do
  assert (log.rollbackInfoTrimmedTo = log.head)
  assert (log.riter = 0)
  some (ofLog o).skipCanRollbackToToHead

/-- `IndexedLog::split_out_child` -/
def splitOutChild (inChild : O → Bool) : IndexedLog O × IndexedLog O :=
  let (log, target) := log.toPgLog.splitOutChild inChild
  (ofLog log, ofLog target)

/-- `add` -/
def add (applied : Bool) : Option (IndexedLog O) := do
  assert (applied ∨ log.canRollbackTo = log.head)
  assert (log.head < e.version)
  assert (log.head.version = 0 ∨ log.head.version < e.version.version)
  let log :=
    { log with
      log := log.log ++ [e]
      riter := log.riter + 1
      head := e.version
      objects :=
        if e.objectIsIndexed then Function.update log.objects e.soid (some e) else log.objects }
  some (if applied then log else log.skipCanRollbackToToHead)

/-- `IndexedLog::trim`: the log and the versions that were taken off. -/
def trim (s : EVersion) : Option (IndexedLog O × List EVersion) := do
  assert (s ≤ log.canRollbackTo)
  let popped := log.log.takeWhile fun e => e.version ≤ s
  let rest := log.log.dropWhile fun e => e.version ≤ s
  let log := popped.foldl (fun log e => log.unindex e) log
  some
    ({ log with
        log := rest
        riter := min log.riter rest.length
        tail := if log.tail < s then s else log.tail }, popped.map (·.version))

end IndexedLog

/-! ## Divergent entries -/

section Divergent

variable [LinearOrder O]

/-- `split_by_object`, in the order of the map. -/
def splitByObject (entries : List (PgLogEntry O)) : List (O × List (PgLogEntry O)) :=
  (((entries.map (·.soid)).dedup).insertionSort (· ≤ ·)).map fun hoid =>
    (hoid, entries.filter fun e => e.soid = hoid)

/-- The loop over the entries of an object: they are on the object, in increasing
order of version, and each comes after the one before it. -/
def checkEntries (hoid : O) : Option EVersion → List (PgLogEntry O) → Option Unit
  | _, [] => some ()
  | last, i :: entries => do
    assert (i.soid = hoid)
    match last with
    | none => some ()
    | some last =>
      if i.priorVersion ≠ 0 then do
        assert (last < i.version)
        assert (i.priorVersion = last)
      else some ()
    checkEntries hoid (some i.version) entries

/-- `remove` unless the object is not in the store, and `trim` of all entries. -/
def removeAndTrim (hoid : O) (objectNotInStore : Bool) (entries : List (PgLogEntry O)) :
    List (HandlerCall O) :=
  (if objectNotInStore then [] else [.remove hoid]) ++ entries.map .trim

/-- `_merge_object_divergent_entries` -/
def mergeObjectDivergentEntries (log : IndexedLog O) (hoid : O) (entries : List (PgLogEntry O))
    (info : PgInfo O) (ologCanRollbackTo : EVersion) (missing : PgMissing O) :
    Option (PgMissing O × List (HandlerCall O)) :=
  if info.lastBackfill < hoid then some (missing, [])
  else
    match entries with
    | [] => none
    | front :: rest => do
      checkEntries hoid none (front :: rest)
      let back := (front :: rest).getLast (List.cons_ne_nil _ _)
      let priorVersion := front.priorVersion
      let firstDivergentUpdate := front.version
      let lastDivergentUpdate := back.version
      let objectNotInStore := !missing.isMissing hoid && back.isDelete
      let recent := (log.objects hoid).filter fun obj => firstDivergentUpdate ≤ obj.version
      match recent with
      | some obj =>
        -- case 1: more recent entry found, already merged
        assert (lastDivergentUpdate < obj.version)
        if obj.isUpdate then
          assert ((missing.items.lookup hoid).map MissingItem.need = some obj.version)
        else
          assert (¬ missing.isMissing hoid)
        some (missing.reviseHave hoid 0, removeAndTrim hoid objectNotInStore (front :: rest))
      | none =>
        if priorVersion = 0 ∨ front.isClone then
          -- case 2: prior_version or op type indicates creation, deleting
          some (missing.rm hoid, removeAndTrim hoid objectNotInStore (front :: rest))
        else
          match missing.items.lookup hoid with
          | some item =>
            -- case 3: missing, adjusting
            some (if item.held = priorVersion then missing.rm hoid
                else missing.reviseNeed hoid priorVersion, (front :: rest).map .trim)
          | none =>
            if ∀ i ∈ front :: rest, i.canRollback ∧ ologCanRollbackTo < i.version then
              -- case 4: rolling back, the newest entry first
              some (missing, (front :: rest).reverse.map .rollback)
            else
              -- case 5: cannot roll back, removing and adding to missing
              some (missing.add hoid priorVersion 0,
                removeAndTrim hoid objectNotInStore (front :: rest))

/-- One round of `_merge_divergent_entries`. -/
def mergeRound (log : IndexedLog O) (oinfo : PgInfo O) (ologCanRollbackTo : EVersion)
    (state : PgMissing O × List (HandlerCall O)) (i : O × List (PgLogEntry O)) :
    Option (PgMissing O × List (HandlerCall O)) := do
  let (omissing, calls) := state
  let (omissing, more) ← mergeObjectDivergentEntries log i.1 i.2 oinfo ologCanRollbackTo omissing
  some (omissing, calls ++ more)

/-- `_merge_divergent_entries` -/
def mergeDivergentEntries (log : IndexedLog O) (entries : List (PgLogEntry O)) (oinfo : PgInfo O)
    (ologCanRollbackTo : EVersion) (omissing : PgMissing O) :
    Option (PgMissing O × List (HandlerCall O)) :=
  (splitByObject entries).foldlM (mergeRound log oinfo ologCanRollbackTo) (omissing, [])

/-! ## Appending -/

/-- What `append_log_entries_update_missing` has the handler do at an entry. -/
def appendCalls (maintainRollback : Bool) (p : PgLogEntry O) : List (HandlerCall O) :=
  if maintainRollback && p.isLostDelete && p.canRollback then [.tryStash p.soid p.version.version]
  else if p.isDelete then [.remove p.soid]
  else []

/-- One round of `append_log_entries_update_missing`. -/
def appendLogEntry (lastBackfill : O) (maintainRollback : Bool)
    (state : IndexedLog O × PgMissing O × List (HandlerCall O)) (p : PgLogEntry O) :
    Option (IndexedLog O × PgMissing O × List (HandlerCall O)) := do
  let (log, missing, calls) := state
  let log ← log.add p true
  if p.soid ≤ lastBackfill ∧ ¬ p.isError then
    let missing ← missing.addNextEvent p
    some (log, missing, calls ++ appendCalls maintainRollback p)
  else some (log, missing, calls)

/-- `append_log_entries_update_missing` -/
def appendLogEntriesUpdateMissing (lastBackfill : O) (entries : List (PgLogEntry O))
    (maintainRollback : Bool) (log : IndexedLog O) (missing : PgMissing O) :
    Option (IndexedLog O × PgMissing O × List (HandlerCall O)) := do
  assert (∀ e ∈ entries.head?, log.head < e.version)
  entries.foldlM (appendLogEntry lastBackfill maintainRollback) (log, missing, [])

end Divergent

/-! ## `PGLog` -/

/-- `PGLog` -/
structure PGLog (O : Type) where
  missing : PgMissing O := {}
  log : IndexedLog O := {}
  dirtyTo : EVersion := 0
  dirtyFrom : EVersion := EVersion.max
  writeoutFrom : EVersion := EVersion.max
  trimmed : Finset EVersion := ∅
  touchedLog : Bool := false
  clearDivergentPriors : Bool := false

/-- A `PGLog` and a `pg_info_t` on which it works, the calls of the handler, and
whether the info was changed (`dirty_info` and `dirty_big_info`, which are set
together). -/
structure Merged (O : Type) where
  pglog : PGLog O
  info : PgInfo O
  calls : List (HandlerCall O) := []
  dirty : Bool := false

namespace PGLog

variable (pglog : PGLog O)

def markDirtyTo (upTo : EVersion) : PGLog O :=
  if pglog.dirtyTo < upTo then { pglog with dirtyTo := upTo } else pglog

def markDirtyFrom (frm : EVersion) : PGLog O :=
  if frm < pglog.dirtyFrom then { pglog with dirtyFrom := frm } else pglog

def markWriteoutFrom (frm : EVersion) : PGLog O :=
  if frm < pglog.writeoutFrom then { pglog with writeoutFrom := frm } else pglog

variable [LinearOrder O]

/-- `add` -/
def add (pglog : PGLog O) (e : PgLogEntry O) (applied : Bool) : Option (PGLog O) := do
  let pglog := pglog.markWriteoutFrom e.version
  let log ← pglog.log.add e applied
  some { pglog with log := log }

/-- `trim` -/
def trim (pglog : PGLog O) (trimTo : EVersion) (info : PgInfo O) : Option (PGLog O × PgInfo O) :=
  if pglog.log.tail < trimTo then do
    assert (trimTo ≤ info.lastComplete)
    let (log, popped) ← pglog.log.trim trimTo
    some ({ pglog with log := log, trimmed := pglog.trimmed ∪ popped.toFinset },
      { info with logTail := log.tail })
  else some (pglog, info)

/-- `append_new_log_entries` -/
def appendNewLogEntries (lastBackfill : O) (entries : List (PgLogEntry O)) :
    Option (PGLog O × List (HandlerCall O)) := do
  let (log, missing, calls) ←
    appendLogEntriesUpdateMissing lastBackfill entries true pglog.log pglog.missing
  let pglog := { pglog with log := log, missing := missing }
  match entries with
  | [] => some (pglog, calls)
  | first :: _ => some (pglog.markWriteoutFrom first.version, calls)

/-- `missing_add` -/
def missingAdd (oid : O) (need held : EVersion) : PGLog O :=
  { pglog with missing := pglog.missing.add oid need held }

/-- `recover_got`, apart from the recovery pointers. -/
def recoverGot (oid : O) (v : EVersion) : Option (PGLog O) := do
  let missing ← if pglog.missing.isMissingAt oid v then pglog.missing.got oid v
    else some pglog.missing
  assert (v ≤ pglog.log.canRollbackTo)
  some { pglog with missing := missing }

/-- `pg_missing_set::split_into`: the items of the objects that fall into the child
are added to its set, in the order of the map, and removed from this one. -/
def splitMissing (inChild : O → Bool) (missing omissing : PgMissing O) :
    PgMissing O × PgMissing O :=
  ((missing.items.keys.filter fun o => inChild o).sort (· ≤ ·)).foldl (fun (missing, omissing) o =>
    match missing.items.lookup o with
    | none => (missing, omissing)
    | some item => (missing.rm o, omissing.add o item.need item.held)) (missing, omissing)

/-- `split_into` -/
def splitInto (pglog opgLog : PGLog O) (inChild : O → Bool) : PGLog O × PGLog O :=
  let (log, olog) := pglog.log.splitOutChild inChild
  let (missing, omissing) := splitMissing inChild pglog.missing opgLog.missing
  ({ pglog with log := log, missing := missing }.markDirtyTo EVersion.max,
   { opgLog with log := olog, missing := omissing }.markDirtyTo EVersion.max)

/-- `reset_backfill_claim_log` -/
def resetBackfillClaimLog (o : PgLog O) : Option (PGLog O × List (HandlerCall O)) := do
  let (log, calls) := pglog.log.trimRollbackInfoTo pglog.log.head
  let log ← log.claimLogAndClearRollbackInfo o
  some ({ pglog with log := log, missing := pglog.missing.clear }.markDirtyTo EVersion.max, calls)

/-- `rewind_divergent_log` -/
def rewindDivergentLog (newhead : EVersion) (info : PgInfo O) : Option (Merged O) := do
  let info :=
    if newhead < info.lastComplete then { info with lastComplete := newhead } else info
  let (log, divergent) ← pglog.log.rewindFromHead newhead
  let pglog := { pglog with log := log }
  let pglog := match divergent with
    | [] => pglog
    | front :: _ => pglog.markDirtyFrom front.version
  let info := { info with lastUpdate := newhead }
  let (missing, calls) ← mergeDivergentEntries log divergent info log.canRollbackTo pglog.missing
  some { pglog := { pglog with missing := missing }, info := info, calls := calls, dirty := true }

/-- `merge_log`, extending the tail: what is left of `olog` is returned as well. -/
def mergeTail (m : Merged O) (olog : PgLog O) : Merged O × PgLog O :=
  let log := m.pglog.log
  if olog.tail < log.tail then
    let taken := olog.log.takeWhile fun e => e.version ≤ log.tail
    let last := (taken.getLast?.map (·.version)).getD 0
    let indexed := taken.foldl (fun log e => log.index e) log
    let log := { indexed with log := taken ++ log.log, tail := olog.tail }
    let pglog := { m.pglog.markDirtyTo last with log := log }
    ({ m with pglog := pglog, info := { m.info with logTail := olog.tail }, dirty := true },
      { olog with log := olog.log.dropWhile fun e => e.version ≤ m.pglog.log.tail })
  else (m, olog)

/-- The cut point of `merge_log`, and the entries of `olog` after it. -/
def cutPoint (head origTail : EVersion) (olog : PgLog O) : EVersion × List (PgLogEntry O) :=
  let lowerBound := Max.max olog.tail origTail
  let found := (olog.log.rdropWhile fun e => head < e.version).getLast?
  (match found with
    | none => lowerBound
    | some e => Max.max lowerBound e.version, olog.log.rtakeWhile fun e => head < e.version)

/-- `merge_log`, extending the head. -/
def mergeHead (m : Merged O) (origTail : EVersion) (olog : PgLog O) : Option (Merged O) := do
  let (lowerBound, newEntries) := cutPoint m.pglog.log.head origTail olog
  let pglog := m.pglog.markDirtyFrom lowerBound
  let (log, divergent) ← pglog.log.rewindFromHead lowerBound
  let (log, forward) := log.rollForwardTo log.head
  let (log, missing, appended) ←
    appendLogEntriesUpdateMissing m.info.lastBackfill newEntries false log pglog.missing
  let (missing, merged) ← mergeDivergentEntries log divergent m.info log.canRollbackTo missing
  let log := { log with head := olog.head }.skipCanRollbackToToHead
  some
    { pglog := { pglog with log := log, missing := missing }
      info := { m.info with lastUpdate := olog.head }
      calls := m.calls ++ forward ++ appended ++ merged
      dirty := true }

/-- `merge_log` -/
def mergeLog (olog : PgLog O) (info : PgInfo O) : Option (Merged O) := do
  -- if our log is empty, the incoming log needs to have not been trimmed
  assert (¬ pglog.log.null ∨ olog.tail = 0)
  -- the logs must overlap
  assert (olog.tail ≤ pglog.log.head ∧ pglog.log.tail ≤ olog.head)
  let origTail := pglog.log.tail
  let (m, olog) := mergeTail { pglog := pglog, info := info } olog
  let m ← if olog.head < m.pglog.log.head then m.pglog.rewindDivergentLog olog.head m.info
    else some m
  if m.pglog.log.head < olog.head then mergeHead m origTail olog else some m

/-- The point `proc_replica_log` rewinds the log of a replica to. -/
def lastShared (log olog : PgLog O) : EVersion :=
  let limit := Max.max olog.tail log.tail
  match (log.log.rdropWhile fun e => olog.head < e.version).getLast? with
  | none => limit
  | some e => if e.version < limit then limit else e.version

/-- `last_complete` of a replica, from its log and what it misses. -/
def replicaLastComplete (olog : PgLog O) (omissing : PgMissing O) (lastUpdate : EVersion) :
    Option EVersion :=
  if omissing.haveMissing then do
    let first ← omissing.rmissing.keys.min.recTopCoe none some
    let oid ← omissing.rmissing.lookup first
    let item ← omissing.items.lookup oid
    some (((olog.log.takeWhile fun i => i.version < item.need).getLast?.map (·.version)).getD 0)
  else some lastUpdate

/-- `proc_replica_log` -/
def procReplicaLog (log : PgLog O) (oinfo : PgInfo O) (olog : PgLog O) (omissing : PgMissing O) :
    Option (PgInfo O × PgMissing O) :=
  if olog.head < log.tail then some (oinfo, omissing)
  else if olog.head = log.head then some (oinfo, omissing)
  else do
    let lu := lastShared log olog
    let (folog, divergent) ← (IndexedLog.ofLog olog).rewindFromHead lu
    -- no handler: the calls are not made
    let (omissing, _) ← mergeDivergentEntries folog divergent oinfo olog.canRollbackTo omissing
    let oinfo := if lu < oinfo.lastUpdate then { oinfo with lastUpdate := lu } else oinfo
    let lastComplete ← replicaLastComplete olog omissing oinfo.lastUpdate
    some ({ oinfo with lastComplete := lastComplete }, omissing)

end PGLog

end Ceph.Osd
