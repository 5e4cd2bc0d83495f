import Ceph.Osd.ObjectModDesc

/-!
# Missing objects

`pg_missing_set` of `osd/osd_types.h`: the objects a placement group knows it
lacks, each with the version it needs and the version it has, and next to them
`rmissing`, which finds an object by the number of the version it needs.

The maps of the source are finite maps.  The set keeps the objects whose items
changed since the last flush (`ChangeTracker<true>`); a `pg_missing_t`, which does
not track changes, is the same structure with that field ignored.
-/

namespace Ceph.Osd

open Finmap

/-! ## Versions -/

namespace EVersion

/-- `eversion_t()` -/
instance : Zero EVersion := ⟨{}⟩

@[simp] theorem epoch_zero : (0 : EVersion).epoch = 0 := rfl

@[simp] theorem version_zero : (0 : EVersion).version = 0 := rfl

variable {a b : EVersion}

theorem lt_iff :
    a < b ↔ a.epoch < b.epoch ∨ a.epoch = b.epoch ∧ a.version < b.version := Prod.Lex.toLex_lt_toLex

theorem le_iff :
    a ≤ b ↔ a.epoch < b.epoch ∨ a.epoch = b.epoch ∧ a.version ≤ b.version := Prod.Lex.toLex_le_toLex

theorem zero_le (a : EVersion) : 0 ≤ a := by
  rw [le_iff, epoch_zero, version_zero]
  omega

theorem eq_zero_of_le (h : a ≤ 0) : a = 0 := le_antisymm h (zero_le a)

theorem pos_of_lt (h : a < b) : b ≠ 0 := ((zero_le a).trans_lt h).ne'

/-- `eversion_t::max()` -/
def max : EVersion := ⟨2 ^ 32 - 1, 2 ^ 64 - 1⟩

end EVersion

/-! ## The missing set -/

/-- `pg_missing_item`: the version that is needed, and the one that is there
(`have` in the source), zero if there is none. -/
structure MissingItem where
  need : EVersion
  held : EVersion
  deriving DecidableEq

/-- `pg_missing_set` -/
structure PgMissing (O : Type) where
  items : Finmap fun _ : O => MissingItem := ∅
  rmissing : Finmap fun _ : ℕ => O := ∅
  changed : Finset O := ∅

namespace PgMissing

variable {O : Type} [DecidableEq O] (missing : PgMissing O) (oid : O)

/-- `is_missing(oid)` -/
def isMissing : Bool := (missing.items.lookup oid).isSome

/-- `is_missing(oid, v)` -/
def isMissingAt (v : EVersion) : Bool :=
  match missing.items.lookup oid with
  | none => false
  | some item => !decide (v < item.need)

/-- `have_missing()` -/
def haveMissing : Bool := missing.items ≠ ∅

/-- `rm(iterator)`, at the item of an object, and `got(iterator)`, which is the
same code.  There is no iterator to an object that is not missing. -/
def rm : PgMissing O :=
  match missing.items.lookup oid with
  | none => missing
  | some item =>
    { items := missing.items.erase oid
      rmissing := missing.rmissing.erase item.need.version
      changed := insert oid missing.changed }

/-- `rm(oid, v)` -/
def rmUpTo (v : EVersion) : PgMissing O :=
  match missing.items.lookup oid with
  | none => missing
  | some item => if item.need ≤ v then missing.rm oid else missing

/-- `got(oid, v)` -/
def got (v : EVersion) : Option (PgMissing O) :=
  match missing.items.lookup oid with
  | none => none
  | some item => do
    assert (item.need ≤ v)
    some (missing.rm oid)

/-- `add` -/
def add (need held : EVersion) : PgMissing O :=
  { items := missing.items.insert oid ⟨need, held⟩
    rmissing := missing.rmissing.insert need.version oid
    changed := insert oid missing.changed }

/-- `revise_need` -/
def reviseNeed (need : EVersion) : PgMissing O :=
  match missing.items.lookup oid with
  | some item =>
    { items := missing.items.insert oid { item with need := need }
      rmissing := (missing.rmissing.erase item.need.version).insert need.version oid
      changed := insert oid missing.changed }
  | none =>
    { items := missing.items.insert oid ⟨need, 0⟩
      rmissing := missing.rmissing.insert need.version oid
      changed := insert oid missing.changed }

/-- `revise_have` -/
def reviseHave (held : EVersion) : PgMissing O :=
  match missing.items.lookup oid with
  | some item =>
    { missing with
      items := missing.items.insert oid { item with held := held }
      changed := insert oid missing.changed }
  | none => missing

/-- What an update does to the item of its object, in `add_next_event`. -/
def nextItem (e : PgLogEntry O) : Option MissingItem → Option MissingItem
  | some item =>
    if e.priorVersion = 0 ∨ e.isClone then some ⟨e.version, 0⟩
    else some { item with need := e.version }
  | none => do
    if e.priorVersion = 0 ∨ e.isClone then some ⟨e.version, 0⟩
    else do
      assert (¬ e.isBacklog)
      some ⟨e.version, e.priorVersion⟩

/-- `add_next_event` -/
def addNextEvent (e : PgLogEntry O) : Option (PgMissing O) :=
  if e.isUpdate then do
    let item ← nextItem e (missing.items.lookup e.soid)
    let rmissing := match missing.items.lookup e.soid with
      | some old => missing.rmissing.erase old.need.version
      | none => missing.rmissing
    some
      { items := missing.items.insert e.soid item
        rmissing := rmissing.insert e.version.version e.soid
        changed := insert e.soid missing.changed }
  else if e.isDelete then
    let missing := missing.rmUpTo e.soid e.version
    some { missing with changed := insert e.soid missing.changed }
  else some { missing with changed := insert e.soid missing.changed }

/-- `clear` -/
def clear : PgMissing O := { changed := missing.changed ∪ missing.items.keys }

/-- `flush` -/
def flush : PgMissing O := { missing with changed := ∅ }

/-! ## What the operations leave of an item -/

section

variable {K V : Type} [DecidableEq K] (m : Finmap fun _ : K => V) (a k : K)

theorem lookup_insert_eq (v : V) :
    (m.insert a v).lookup k = if k = a then some v else m.lookup k := by
  split
  · subst k; exact lookup_insert _
  · exact lookup_insert_of_ne _ ‹_›

theorem lookup_erase_eq : (m.erase a).lookup k = if k = a then none else m.lookup k := by
  split
  · subst k; exact lookup_erase _ _
  · exact lookup_erase_ne ‹_›

end

variable {missing}

theorem isMissing_eq_false {oid : O} :
    missing.isMissing oid = false ↔ missing.items.lookup oid = none := by
  simp [isMissing]

theorem lookup_rm (oid o : O) :
    (missing.rm oid).items.lookup o = if o = oid then none else missing.items.lookup o := by
  rw [rm]
  split <;> rename_i h
  · split
    · subst o; exact h
    · rfl
  · exact lookup_erase_eq ..

theorem lookup_add (oid o : O) (need held : EVersion) : (missing.add oid need held).items.lookup o =
      if o = oid then some ⟨need, held⟩ else missing.items.lookup o :=
  lookup_insert_eq ..

theorem lookup_reviseNeed (oid o : O) (need : EVersion) :
    (missing.reviseNeed oid need).items.lookup o =
      if o = oid then some ⟨need, ((missing.items.lookup oid).map MissingItem.held).getD 0⟩
      else missing.items.lookup o := by
  rw [reviseNeed]
  split <;> rename_i h <;> rw [h] <;> exact lookup_insert_eq ..

theorem lookup_reviseHave (oid o : O) (held : EVersion) :
    (missing.reviseHave oid held).items.lookup o =
      if o = oid then (missing.items.lookup oid).map fun item => { item with held := held }
      else missing.items.lookup o := by
  rw [reviseHave]
  split <;> rename_i h
  · rw [h]; exact lookup_insert_eq ..
  · split
    · subst o; rw [h]; rfl
    · rfl

theorem lookup_rmUpTo (oid o : O) (v : EVersion) : (missing.rmUpTo oid v).items.lookup o =
      if o = oid then (missing.items.lookup oid).filter fun item => v < item.need
      else missing.items.lookup o := by
  rw [rmUpTo]
  split <;> rename_i h
  · split
    · subst o; rw [h]; rfl
    · rfl
  rename_i item
  by_cases hv : item.need ≤ v
  · rw [if_pos hv, lookup_rm, h]
    simp [Option.filter, not_lt.2 hv]
  · rw [if_neg hv, h]
    split
    · subst o; simp [Option.filter, h, not_le.1 hv]
    · rfl

omit [DecidableEq O] in
theorem nextItem_need {e : PgLogEntry O} {item : Option MissingItem} {i : MissingItem}
    (h : nextItem e item = some i) : i.need = e.version := by
  unfold nextItem at h
  split at h
  · split at h <;> cases h <;> rfl
  · split at h
    · cases h; rfl
    · obtain ⟨-, h⟩ := of_assert h
      cases h; rfl

/-- The events of an object touch no other item. -/
theorem lookup_addNextEvent_of_ne {e : PgLogEntry O} {missing' : PgMissing O} {o : O}
    (h : missing.addNextEvent e = some missing') (ho : o ≠ e.soid) :
    missing'.items.lookup o = missing.items.lookup o := by
  rw [addNextEvent] at h
  split at h
  · obtain ⟨item, -, h⟩ := of_bind h
    cases h
    exact lookup_insert_of_ne _ ho
  · split at h
    · cases h
      simp only [lookup_rmUpTo, if_neg ho]
    · cases h
      rfl

end PgMissing

end Ceph.Osd
