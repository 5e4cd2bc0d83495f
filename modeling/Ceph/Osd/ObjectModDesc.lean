import Ceph.Osd.ECUtil
import Ceph.Osd.ObjectStore

/-!
# Log entries and their undo records

`pg_log_entry_t` and `ObjectModDesc` of `osd/osd_types.h`, and the transaction
`PGBackend::rollback` builds from the undo records of an entry.  The records are
kept as a list, not in their encoded form.
-/

namespace Ceph.Osd

/-- `eversion_t` -/
structure EVersion where
  epoch : ℕ := 0
  version : ℕ := 0
  deriving DecidableEq

namespace EVersion

theorem toLex_injective : Function.Injective fun v : EVersion => toLex (v.epoch, v.version) := by
  rintro ⟨e, v⟩ ⟨e', v'⟩ h
  obtain ⟨rfl, rfl⟩ := Prod.mk.inj (toLex.injective h)
  rfl

/-- Versions are ordered by epoch, then by version. -/
instance : LinearOrder EVersion := LinearOrder.lift' _ toLex_injective

end EVersion

/-- `map<string, boost::optional<bufferlist>>`: the value an attribute had, or
that there was none.  Keys are distinct. -/
abbrev OldAttrs : Type := List (String × Option Buffer)

/-- An undo record: `ObjectModDesc::ModID` and its arguments. -/
inductive ModOp where
  | append (oldSize : ℕ)
  | setattrs (attrs : OldAttrs)
  | delete (oldVersion : ℕ)
  | create
  | updateSnaps (oldSnaps : List ℕ)
  | tryDelete (oldVersion : ℕ)
  | rollbackExtents (gen : ℕ) (extents : List (ℕ × ℕ))
  deriving DecidableEq

/-- `ObjectModDesc` -/
structure ObjectModDesc where
  canLocalRollback : Bool := true
  rollbackInfoCompleted : Bool := false
  maxRequiredVersion : ℕ := 1
  bl : List ModOp := []
  deriving DecidableEq

namespace ObjectModDesc

variable (desc : ObjectModDesc)

/-- Add a record, unless the entry cannot be rolled back or what it did before is
undone as a whole. -/
def record (op : ModOp) : ObjectModDesc :=
  if !desc.canLocalRollback || desc.rollbackInfoCompleted then desc
  else { desc with bl := desc.bl ++ [op] }

def append (oldSize : ℕ) : ObjectModDesc := desc.record (.append oldSize)

def setattrs (oldAttrs : OldAttrs) : ObjectModDesc := desc.record (.setattrs oldAttrs)

def updateSnaps (oldSnaps : List ℕ) : ObjectModDesc := desc.record (.updateSnaps oldSnaps)

/-- A record after which nothing more needs to be recorded. -/
def recordLast (op : ModOp) : ObjectModDesc :=
  if !desc.canLocalRollback || desc.rollbackInfoCompleted then desc
  else { desc with bl := desc.bl ++ [op], rollbackInfoCompleted := true }

def rmobject (deletionVersion : ℕ) : ObjectModDesc := desc.recordLast (.delete deletionVersion)

def create : ObjectModDesc := desc.recordLast .create

def rollbackExtents (gen : ℕ) (extents : List (ℕ × ℕ)) : Option ObjectModDesc := do
  assert (desc.canLocalRollback)
  assert (¬ desc.rollbackInfoCompleted)
  some { desc with
    maxRequiredVersion := if desc.maxRequiredVersion < 2 then 2 else desc.maxRequiredVersion
    bl := desc.bl ++ [.rollbackExtents gen extents] }

def canRollback : Bool := desc.canLocalRollback

end ObjectModDesc

/-- The operation of a `pg_log_entry_t`. -/
inductive LogOp where
  | modify
  | clone
  | delete
  | backlog
  | lostRevert
  | lostDelete
  | lostMark
  | promote
  | clean
  | error
  deriving DecidableEq

/-- `pg_log_entry_t`, over the type of the object names. -/
structure PgLogEntry (O : Type) where
  op : LogOp
  soid : O
  version : EVersion
  priorVersion : EVersion
  modDesc : ObjectModDesc := {}
  snaps : List ℕ := []
  deriving DecidableEq

namespace PgLogEntry

variable {O : Type} (e : PgLogEntry O)

def isModify : Bool := e.op = .modify

def isClone : Bool := e.op = .clone

def isBacklog : Bool := e.op = .backlog

def isLostDelete : Bool := e.op = .lostDelete

def isError : Bool := e.op = .error

def isUpdate : Bool :=
  e.op = .clone || e.op = .modify || e.op = .promote || e.op = .clean || e.op = .backlog ||
    e.op = .lostRevert || e.op = .lostMark

def isDelete : Bool := e.op = .delete || e.op = .lostDelete

def canRollback : Bool := e.modDesc.canRollback

end PgLogEntry

/-! ## Rolling back -/

/-- `PGBackend::rollback_setattrs` -/
def rollbackSetattrs (hoid : Soid) (oldAttrs : OldAttrs) : Option (List StoreOp) := do
  assert (¬ hoid.isTemp)
  some ((oldAttrs.filter (·.2.isNone)).map (fun attr => .rmattr ⟨hoid, none⟩ attr.1) ++
    [.setattrs ⟨hoid, none⟩ (oldAttrs.filterMap fun attr => attr.2.map fun val => (attr.1, val))])

/-- `ECBackend::rollback_append` -/
def rollbackAppend (sinfo : StripeInfo) (hoid : Soid) (oldSize : ℕ) : Option (List StoreOp) := do
  assert (oldSize % sinfo.stripeWidth = 0)
  let size ← sinfo.alignedLogicalOffsetToChunkOffset oldSize
  some [.truncate ⟨hoid, none⟩ size]

/-- `PGBackend::rollback_stash` -/
def rollbackStash (hoid : Soid) (oldVersion : ℕ) : Option (List StoreOp) := do
  assert (¬ hoid.isTemp)
  some [.remove ⟨hoid, none⟩, .collectionMoveRename ⟨hoid, some oldVersion⟩ ⟨hoid, none⟩]

/-- `PGBackend::rollback_try_stash` -/
def rollbackTryStash (hoid : Soid) (oldVersion : ℕ) : Option (List StoreOp) := do
  assert (¬ hoid.isTemp)
  some [.remove ⟨hoid, none⟩, .tryRename ⟨hoid, some oldVersion⟩ ⟨hoid, none⟩]

/-- `PGBackend::rollback_create` -/
def rollbackCreate (hoid : Soid) : Option (List StoreOp) := do
  assert (¬ hoid.isTemp)
  some [.remove ⟨hoid, none⟩, .clearObjectSnapMapping hoid]

/-- `PGBackend::rollback_extents` -/
def rollbackExtents (gen : ℕ) (extents : List (ℕ × ℕ)) (hoid : Soid) : List StoreOp :=
  extents.map (fun extent =>
    .cloneRange ⟨hoid, some gen⟩ ⟨hoid, none⟩ extent.1 extent.2 extent.1) ++
  [.remove ⟨hoid, some gen⟩]

/-- What the `RollbackVisitor` does at a record. -/
def undo (sinfo : StripeInfo) (hoid : Soid) : ModOp → Option (List StoreOp)
  | .append oldSize => rollbackAppend sinfo hoid oldSize
  | .setattrs attrs => rollbackSetattrs hoid attrs
  | .delete oldVersion => rollbackStash hoid oldVersion
  | .create => rollbackCreate hoid
  | .updateSnaps oldSnaps => some [.setObjectSnapMapping hoid oldSnaps]
  | .tryDelete oldVersion => rollbackTryStash hoid oldVersion
  | .rollbackExtents gen extents => some (rollbackExtents gen extents hoid)

/-- `PGBackend::rollback`: every undo is put before those of the records visited
so far. -/
def rollback (sinfo : StripeInfo) (entry : PgLogEntry Soid) : Option (List StoreOp) := do
  assert (entry.modDesc.canRollback)
  entry.modDesc.bl.foldlM (fun t op => (undo sinfo entry.soid op).map (· ++ t)) []

end Ceph.Osd
