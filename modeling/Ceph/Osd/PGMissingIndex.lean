import Ceph.Lib.InverseIndex
import Ceph.Osd.PGLogBoundary

/-!
# `missing` and `rmissing`

`rmissing` finds a missing object by the number of the version it needs.  It is changed
by that number alone: no function looks whose entry it overwrites or erases.  What every
call does to the two maps is a sequence of updates of a map and the index over its
values, read off the arguments and the state before the call; whether `rmissing` is
still the inverse of `missing` after a run depends on that sequence only.
-/

namespace Ceph.Osd

open List Option PgMissing

open InverseIndex (State Update Inverse Clashed LeftBehind)

variable {O : Type} [LinearOrder O] {missing missing' : PgMissing O}

namespace PgMissing

section

variable (missing : PgMissing O)

/-- Every missing object has its own entry of `rmissing`, and there is no other
entry. -/
def RmissingInverse : Prop :=
  ∀ n o, missing.rmissing.lookup n = some o ↔
    ∃ item, missing.items.lookup o = some item ∧ item.need.version = n

/-- The numbers of the versions that are needed, and `rmissing`. -/
def numbers : State O ℕ where
  key o := (missing.items.lookup o).map fun item => item.need.version
  owner n := missing.rmissing.lookup n

theorem inverse_numbers : Inverse missing.numbers ↔ missing.RmissingInverse := by
  unfold Inverse RmissingInverse numbers
  simp only [map_eq_some_iff]

@[simp] theorem key_numbers (o : O) :
    missing.numbers.key o = (missing.items.lookup o).map fun item => item.need.version := rfl

@[simp] theorem owner_numbers (n : ℕ) :
    missing.numbers.owner n = missing.rmissing.lookup n := rfl

end

/-! ## The functions as updates -/

/-- Erasing the entry of an object, if it is missing. -/
theorem dropKey_of_some {o : O} {item : MissingItem} (h : missing.items.lookup o = some item)
    (n : ℕ) :
    missing.numbers.dropKey o n = (missing.rmissing.erase item.need.version).lookup n := by
  rw [State.dropKey_apply, key_numbers, h, owner_numbers, map_some, lookup_erase_eq]
  simp only [Option.some_inj, eq_comm]

theorem dropKey_of_none {o : O} (h : missing.items.lookup o = none) (n : ℕ) :
    missing.numbers.dropKey o n = missing.rmissing.lookup n := by
  rw [State.dropKey_apply, key_numbers, h]
  rfl

theorem numbers_rm (missing : PgMissing O) (oid : O) :
    (missing.rm oid).numbers = missing.numbers.apply (.remove oid) := by
  ext1
  · funext o
    rw [key_numbers, lookup_rm]
    by_cases ho : o = oid
    · subst ho; simp [State.apply]
    · simp [State.apply, ho]
  · funext n
    change (missing.rm oid).rmissing.lookup n = missing.numbers.dropKey oid n
    unfold rm
    cases h : missing.items.lookup oid with
    | none => rw [dropKey_of_none h]
    | some item => rw [dropKey_of_some h]

theorem numbers_add (missing : PgMissing O) (oid : O) (need held : EVersion) :
    (missing.add oid need held).numbers = missing.numbers.apply (.add oid need.version) := by
  ext1
  · funext o
    rw [key_numbers, lookup_add]
    by_cases ho : o = oid
    · subst ho; simp [State.apply]
    · simp [State.apply, ho]
  · funext n
    change (missing.rmissing.insert need.version oid).lookup n =
      Function.update missing.numbers.owner need.version (some oid) n
    rw [lookup_insert_eq, Function.update_apply, owner_numbers]

/-- What the functions that move an object to a version have in common. -/
theorem numbers_put {oid : O} {v : EVersion}
    (hitems : ∀ o, (missing'.items.lookup o).map (fun item => item.need.version) =
      if o = oid then some v.version
      else (missing.items.lookup o).map fun item => item.need.version)
    (hsome : ∀ item, missing.items.lookup oid = some item →
      missing'.rmissing = (missing.rmissing.erase item.need.version).insert v.version oid)
    (hnone : missing.items.lookup oid = none →
      missing'.rmissing = missing.rmissing.insert v.version oid) :
    missing'.numbers = missing.numbers.apply (.put oid v.version) := by
  ext1
  · funext o
    rw [key_numbers, hitems]
    by_cases ho : o = oid
    · subst ho; simp [State.apply]
    · simp [State.apply, ho]
  · funext n
    change missing'.rmissing.lookup n =
      Function.update (missing.numbers.dropKey oid) v.version (some oid) n
    rw [Function.update_apply]
    cases h : missing.items.lookup oid with
    | none => rw [hnone h, lookup_insert_eq, dropKey_of_none h]
    | some item => rw [hsome item h, lookup_insert_eq, dropKey_of_some h]

theorem numbers_reviseNeed (missing : PgMissing O) (oid : O) (need : EVersion) :
    (missing.reviseNeed oid need).numbers = missing.numbers.apply (.put oid need.version) := by
  refine numbers_put (fun o => ?_) (fun item h => ?_) fun h => ?_
  · rw [lookup_reviseNeed]
    split <;> rfl
  · unfold reviseNeed
    rw [h]
  · unfold reviseNeed
    rw [h]

theorem numbers_reviseHave (missing : PgMissing O) (oid : O) (held : EVersion) :
    (missing.reviseHave oid held).numbers = missing.numbers := by
  ext1
  · funext o
    rw [key_numbers, key_numbers, lookup_reviseHave]
    by_cases ho : o = oid
    · subst ho
      rw [if_pos rfl, Option.map_map]
      rfl
    · rw [if_neg ho]
  · funext n
    unfold numbers reviseHave
    cases missing.items.lookup oid <;> rfl

end PgMissing

/-! ## Log entries -/

/-- The updates of `rm(oid, v)`. -/
def rmUpdates (missing : PgMissing O) (oid : O) (v : EVersion) : List (Update O ℕ) :=
  match missing.items.lookup oid with
  | none => []
  | some item => if item.need ≤ v then [.remove oid] else []

/-- The updates of `add_next_event`. -/
def eventUpdates (missing : PgMissing O) (e : PgLogEntry O) : List (Update O ℕ) :=
  if e.isUpdate then [.put e.soid e.version.version]
  else if e.isDelete then rmUpdates missing e.soid e.version
  else []

/-- The updates of `append_log_entries_update_missing`, entry by entry. -/
def appendUpdates (lastBackfill : O) : PgMissing O → List (PgLogEntry O) → List (Update O ℕ)
  | _, [] => []
  | missing, p :: entries =>
    if Counts lastBackfill p then
      match missing.addNextEvent p with
      | some missing' => eventUpdates missing p ++ appendUpdates lastBackfill missing' entries
      | none => []
    else appendUpdates lastBackfill missing entries

theorem numbers_rmUpTo (missing : PgMissing O) (oid : O) (v : EVersion) :
    (missing.rmUpTo oid v).numbers = missing.numbers.run (rmUpdates missing oid v) := by
  unfold rmUpTo rmUpdates
  cases missing.items.lookup oid with
  | none => rfl
  | some item =>
    dsimp only
    split
    · exact numbers_rm missing oid
    · rfl

theorem numbers_addNextEvent {e : PgLogEntry O} (h : missing.addNextEvent e = some missing') :
    missing'.numbers = missing.numbers.run (eventUpdates missing e) := by
  unfold addNextEvent at h
  unfold eventUpdates
  split at h
  · rename_i hu
    rw [if_pos hu]
    obtain ⟨item, hitem, h⟩ := of_bind h
    cases h
    have hneed := nextItem_need hitem
    refine numbers_put (fun o => ?_) (fun old hold => ?_) fun hnone => ?_
    · rw [lookup_insert_eq, apply_ite (Option.map _), map_some, hneed]
    · rw [hold]
    · rw [hnone]
  · rename_i hu
    rw [if_neg hu]
    split at h
    · rename_i hd
      rw [if_pos hd]
      cases h
      exact numbers_rmUpTo missing e.soid e.version
    · rename_i hd
      rw [if_neg hd]
      cases h
      rfl

variable {entries : List (PgLogEntry O)}

theorem numbers_appendEntries {lastBackfill : O} {mr : Bool}
    {state state' : IndexedLog O × PgMissing O × List (HandlerCall O)}
    (h : entries.foldlM (appendLogEntry lastBackfill mr) state = some state') :
    state'.2.1.numbers = state.2.1.numbers.run (appendUpdates lastBackfill state.2.1 entries) := by
  induction entries generalizing state with
  | nil => cases h; rfl
  | cons p entries ih =>
    obtain ⟨next, hnext, h⟩ := of_bind h
    obtain ⟨-, hcount, hnot⟩ := appendLogEntry_eq_some hnext
    unfold appendUpdates
    rw [ih h]
    by_cases hc : Counts lastBackfill p
    · rw [if_pos hc, (hcount hc).1, State.run_append, numbers_addNextEvent (hcount hc).1]
    · rw [if_neg hc, (hnot hc).1]

theorem numbers_append {lastBackfill : O} {mr : Bool}
    {log log' : IndexedLog O} {calls : List (HandlerCall O)}
    (h : appendLogEntriesUpdateMissing lastBackfill entries mr log missing =
      some (log', missing', calls)) :
    missing'.numbers = missing.numbers.run (appendUpdates lastBackfill missing entries) := by
  unfold appendLogEntriesUpdateMissing at h
  rw [assert_bind_eq_some] at h
  exact numbers_appendEntries h.2

/-! ## Divergent entries -/

namespace Decision

/-- The updates a decision makes. -/
def updates (d : Decision O) : List (Update O ℕ) :=
  match d.kind with
  | .notBackfilled => []
  | .moreRecent => []
  | .created => [.remove d.hoid]
  | .missing =>
    if d.item.map MissingItem.held = some d.prior then [.remove d.hoid]
    else [.put d.hoid d.prior.version]
  | .canRollback => []
  | .cannotRollback => [.add d.hoid d.prior.version]

theorem numbers_apply (d : Decision O) (missing : PgMissing O) :
    (d.apply missing).numbers = missing.numbers.run d.updates := by
  unfold apply updates
  cases d.kind with
  | notBackfilled => rfl
  | moreRecent => exact numbers_reviseHave missing d.hoid 0
  | created => exact numbers_rm missing d.hoid
  | missing =>
    dsimp only
    split
    · exact numbers_rm missing d.hoid
    · exact numbers_reviseNeed missing d.hoid d.prior
  | canRollback => rfl
  | cannotRollback => exact numbers_add missing d.hoid d.prior 0

theorem numbers_applyAll (ds : List (Decision O)) (missing : PgMissing O) :
    (applyAll ds missing).numbers = missing.numbers.run (ds.flatMap updates) := by
  induction ds generalizing missing with
  | nil => rfl
  | cons d ds ih =>
    rw [flatMap_cons, State.run_append, ← d.numbers_apply]
    exact ih (d.apply missing)

end Decision

/-- The updates for an object with divergent entries: none if a new entry writes it or
it is rolled back, and otherwise it is removed or moved to its prior version. -/
def objectUpdates (pglog : PGLog O) (info : PgInfo O) (call : RewindCall O) (o : O)
    (entries : List (PgLogEntry O)) : List (Update O ℕ) :=
  if info.lastBackfill < o ∨ (newest (call.news pglog.log.toPgLog) o).isSome then []
  else
    match entries with
    | [] => []
    | front :: rest =>
      if front.priorVersion = 0 ∨ front.isClone then [.remove o]
      else
        match pglog.missing.items.lookup o with
        | some item =>
          if item.held = front.priorVersion then [.remove o]
          else [.put o front.priorVersion.version]
        | none =>
          if ∀ e ∈ front :: rest, e.canRollback then [] else [.add o front.priorVersion.version]

/-- The updates of `rewind_divergent_log` and `merge_log`: those of the new entries, in
the order of the log, and then those of the divergent ones, object by object. -/
def RewindCall.updates (pglog : PGLog O) (info : PgInfo O) (call : RewindCall O) :
    List (Update O ℕ) :=
  appendUpdates info.lastBackfill pglog.missing (call.news pglog.log.toPgLog) ++
    (splitByObject (pglog.log.divergent (call.cut pglog.log.toPgLog))).flatMap fun object =>
      objectUpdates pglog info call object.1 object.2

section Rewind

variable {pglog : PGLog O} {info : PgInfo O} {call : RewindCall O} {r : Merged O}

/-- The updates of a decision, from the state before the call. -/
theorem MergePhase.updates_eq (phase : MergePhase pglog info call r) (hwf : pglog.log.Wf) {o : O}
    (hentries : entries = call.divergentOf pglog.log.toPgLog o) {d : Decision O}
    (hd : decideObject phase.log phase.info' phase.boundary phase.missing (o, entries) = some d) :
    d.updates = objectUpdates pglog info call o entries := by
  obtain ⟨rfl, rfl, hitem, hcase⟩ := decideObject_eq_some hd
  dsimp only at hentries hitem hcase
  unfold objectUpdates
  rcases divergentCase_eq_some.1 hcase with ⟨hlt, hkind⟩ | ⟨hle, front, rest, hcons, -, hkind⟩
  · rw [phase.lastBackfill_eq] at hlt
    rw [if_pos (.inl hlt), Decision.updates, hkind]
  have hmem : front ∈ call.divergentOf pglog.log.toPgLog d.hoid := by
    rw [← hentries, hcons]
    exact mem_cons_self ..
  have hrecent := phase.moreRecent_eq hwf hmem
  rcases hkind with ⟨obj, hobj, -, -, hkind⟩ | ⟨hnone, hkind⟩
  · rw [hrecent] at hobj
    rw [if_pos (.inr (by rw [hobj]; rfl)), Decision.updates, hkind]
  rw [hrecent] at hnone
  have hsame := phase.lookup_eq fun p hp ho hc => hc.2 (newest_eq_none_iff.1 hnone p hp ho)
  have hnot : ¬ (info.lastBackfill < d.hoid ∨
      (newest (call.news pglog.log.toPgLog) d.hoid).isSome) := by
    rw [hnone, ← phase.lastBackfill_eq]
    simpa using hle
  have hprior : d.prior = front.priorVersion := by rw [Decision.prior, hcons]; rfl
  have hroll : Rollable phase.boundary (front :: rest) ↔ ∀ e ∈ front :: rest, e.canRollback := by
    refine forall₂_congr fun e he => ⟨fun h => h.1, fun h => ⟨h, ?_⟩⟩
    rw [← hcons, hentries] at he
    exact phase.boundary_le.trans_lt (phase.cut_lt e (mem_entriesOf.1 he).1)
  rw [hsame] at hitem hkind
  rw [if_neg hnot, hcons, Decision.updates, hkind, hitem, hprior, oldCase]
  dsimp only
  by_cases hcr : front.priorVersion = 0 ∨ front.isClone
  · rw [if_pos hcr, if_pos hcr]
  rw [if_neg hcr, if_neg hcr]
  cases pglog.missing.items.lookup d.hoid with
  | some item => simp
  | none =>
    simp only [isSome_none, Bool.false_eq_true, if_false]
    by_cases hcan : ∀ e ∈ front :: rest, e.canRollback
    · rw [if_pos (hroll.2 hcan), if_pos hcan]
    · rw [if_neg (fun h => hcan (hroll.1 h)), if_neg hcan]

/-- **What `rewind_divergent_log` and `merge_log` do to `missing` and `rmissing`.** -/
theorem RewindCall.numbers_run (hwf : pglog.log.Wf) (hrun : call.run pglog info = some r) :
    r.pglog.missing.numbers = pglog.missing.numbers.run (call.updates pglog info) := by
  obtain ⟨phase⟩ := exists_mergePhase hwf hrun
  obtain ⟨log₀, log₁, calls, happend⟩ := phase.append_eq
  have hmerge := phase.merge_eq
  rw [mergeDivergentEntries_eq] at hmerge
  obtain ⟨ds, hds, hmerge⟩ := of_map hmerge
  obtain ⟨hmissing, -⟩ := Prod.mk.inj hmerge
  have hupdates : ds.flatMap Decision.updates =
      (splitByObject (pglog.log.divergent (call.cut pglog.log.toPgLog))).flatMap fun object =>
        objectUpdates pglog info call object.1 object.2 := by
    refine Loop.flatMap_of_mapM hds fun object hobject d hd => ?_
    exact phase.updates_eq hwf (mem_splitByObject.1 hobject).1 hd
  rw [RewindCall.updates, State.run_append, ← numbers_append happend, ← hupdates, ← hmissing]
  exact Decision.numbers_applyAll ds phase.missing

end Rewind

/-! ## Splitting -/

variable (inChild : O → Bool)

/-- The missing objects that fall into the child, in the order of the map. -/
def splitObjects (missing : PgMissing O) : List O :=
  SortedList.ascending (missing.items.keys.filter fun o => inChild o)

/-- The updates of the child's set. -/
def childUpdates (missing : PgMissing O) : List (Update O ℕ) :=
  (splitObjects inChild missing).filterMap fun o =>
    (missing.items.lookup o).map fun item => .add o item.need.version

/-- One round of `pg_missing_set::split_into`. -/
def splitRound (state : PgMissing O × PgMissing O) (o : O) : PgMissing O × PgMissing O :=
  match state.1.items.lookup o with
  | none => state
  | some item => (state.1.rm o, state.2.add o item.need item.held)

theorem splitMissing_eq (missing omissing : PgMissing O) :
    PGLog.splitMissing inChild missing omissing =
      (splitObjects inChild missing).foldl splitRound (missing, omissing) := rfl

theorem splitRound_fst (state : PgMissing O × PgMissing O) (o : O) :
    (splitRound state o).1 = state.1.rm o := by
  unfold splitRound rm
  cases state.1.items.lookup o <;> rfl

/-- The objects still to come have the items of the start. -/
theorem numbers_foldl_splitRound {start : PgMissing O} {objects : List O} (hnodup : objects.Nodup)
    (state : PgMissing O × PgMissing O)
    (hsame : ∀ o ∈ objects, state.1.items.lookup o = start.items.lookup o) :
    (objects.foldl splitRound state).1.numbers = state.1.numbers.run (objects.map .remove) ∧
    (objects.foldl splitRound state).2.numbers = state.2.numbers.run (objects.filterMap fun o =>
        (start.items.lookup o).map fun item => .add o item.need.version) := by
  induction objects generalizing state with
  | nil => exact ⟨rfl, rfl⟩
  | cons o objects ih =>
    obtain ⟨ho, hnodup⟩ := nodup_cons.1 hnodup
    have hrest : ∀ o' ∈ objects, (splitRound state o).1.items.lookup o' =
        start.items.lookup o' := by
      intro o' ho'
      have hne : o' ≠ o := fun h => ho (h ▸ ho')
      rw [splitRound_fst, lookup_rm, if_neg hne]
      exact hsame o' (mem_cons_of_mem _ ho')
    obtain ⟨ih1, ih2⟩ := ih hnodup (splitRound state o) hrest
    rw [foldl_cons]
    constructor
    · rw [ih1, splitRound_fst, numbers_rm]
      rfl
    · rw [ih2, filterMap_cons, ← hsame o mem_cons_self]
      unfold splitRound
      cases state.1.items.lookup o with
      | none => rfl
      | some item =>
        rw [numbers_add]
        rfl

theorem numbers_splitMissing (missing omissing : PgMissing O) :
    (PGLog.splitMissing inChild missing omissing).1.numbers =
      missing.numbers.run ((splitObjects inChild missing).map .remove) ∧
    (PGLog.splitMissing inChild missing omissing).2.numbers =
      omissing.numbers.run (childUpdates inChild missing) := by
  exact numbers_foldl_splitRound (Finset.sort_nodup _ _) (missing, omissing) fun _ _ => rfl

/-! ## Runs -/

/-- The calls that change the missing set of a log. -/
inductive MissingCall (O : Type) where
  /-- `merge_log` and `rewind_divergent_log` -/
  | rewind (call : RewindCall O) (info : PgInfo O)
  | appendNewLogEntries (lastBackfill : O) (entries : List (PgLogEntry O))
  | recoverGot (oid : O) (v : EVersion)
  | missingAdd (oid : O) (need held : EVersion)
  /-- `split_into`, of this log. -/
  | splitInto (inChild : O → Bool)
  /-- `split_into` of the log of a parent, into this log. -/
  | splitFrom (parent : PGLog O) (inChild : O → Bool)

namespace MissingCall

def run (pglog : PGLog O) : MissingCall O → Option (PGLog O)
  | .rewind call info => (call.run pglog info).map (·.pglog)
  | .appendNewLogEntries lastBackfill entries =>
    (pglog.appendNewLogEntries lastBackfill entries).map (·.1)
  | .recoverGot oid v => pglog.recoverGot oid v
  | .missingAdd oid need held => some (pglog.missingAdd oid need held)
  | .splitInto inChild => some (pglog.splitInto {} inChild).1
  | .splitFrom parent inChild => some (parent.splitInto pglog inChild).2

/-- The updates a call makes, from its arguments and the state before it. -/
def updates (pglog : PGLog O) : MissingCall O → List (Update O ℕ)
  | .rewind call info => call.updates pglog info
  | .appendNewLogEntries lastBackfill entries => appendUpdates lastBackfill pglog.missing entries
  | .recoverGot oid v => if pglog.missing.isMissingAt oid v then [.remove oid] else []
  | .missingAdd oid need _ => [.add oid need.version]
  | .splitInto inChild => (splitObjects inChild pglog.missing).map .remove
  | .splitFrom parent inChild => childUpdates inChild parent.missing

theorem numbers_recoverGot {pglog pglog' : PGLog O} {oid : O} {v : EVersion}
    (h : pglog.recoverGot oid v = some pglog') :
    pglog'.missing.numbers = pglog.missing.numbers.run
      (if pglog.missing.isMissingAt oid v then [.remove oid] else []) := by
  unfold PGLog.recoverGot at h
  split at h <;> rename_i hmissing
  · obtain ⟨missing, hgot, h⟩ := of_bind h
    cases (of_assert h).2
    unfold got at hgot
    cases hitem : pglog.missing.items.lookup oid with
    | none => rw [hitem] at hgot; cases hgot
    | some item =>
      rw [hitem] at hgot
      cases (of_assert hgot).2
      rw [if_pos hmissing]
      exact numbers_rm _ _
  · obtain ⟨missing, hgot, h⟩ := of_bind h
    cases hgot
    cases (of_assert h).2
    rw [if_neg hmissing]
    rfl

/-- **What a call does to `missing` and `rmissing`.** -/
theorem numbers_run {pglog pglog' : PGLog O} {call : MissingCall O} (hwf : pglog.log.Wf)
    (h : call.run pglog = some pglog') :
    pglog'.missing.numbers = pglog.missing.numbers.run (call.updates pglog) := by
  cases call with
  | rewind call info =>
    obtain ⟨r, hr, rfl⟩ := of_map h
    exact RewindCall.numbers_run hwf hr
  | appendNewLogEntries lastBackfill entries =>
    obtain ⟨⟨pglog'', calls⟩, hr, rfl⟩ := of_map h
    obtain ⟨⟨log, missing, calls'⟩, happend, hr⟩ := of_bind hr
    rw [updates, ← numbers_append happend]
    cases entries with
    | nil => cases hr; rfl
    | cons first entries =>
      cases hr
      unfold PGLog.markWriteoutFrom
      split <;> rfl
  | recoverGot oid v => exact numbers_recoverGot h
  | missingAdd oid need held =>
    cases h
    exact numbers_add ..
  | splitInto inChild =>
    cases h
    rw [updates, ← (numbers_splitMissing inChild pglog.missing {}).1]
    unfold PGLog.splitInto PGLog.markDirtyTo
    dsimp only
    split <;> rfl
  | splitFrom parent inChild =>
    cases h
    rw [updates, ← (numbers_splitMissing inChild parent.missing pglog.missing).2]
    unfold PGLog.splitInto PGLog.markDirtyTo
    dsimp only
    split <;> rfl

end MissingCall

/-- A log that can be reached from one that misses nothing, with the updates of its
missing set so far.  In between, the log may change in any way that leaves the missing
set alone. -/
inductive Reached : List (Update O ℕ) → PGLog O → Prop where
  | empty {pglog : PGLog O} (hitems : pglog.missing.items = ∅)
      (hrmissing : pglog.missing.rmissing = ∅) : Reached [] pglog
  | other {us : List (Update O ℕ)} {pglog pglog' : PGLog O} (h : Reached us pglog)
      (hsame : pglog'.missing = pglog.missing) : Reached us pglog'
  | call {us : List (Update O ℕ)} {pglog pglog' : PGLog O} (call : MissingCall O)
      (h : Reached us pglog) (hwf : pglog.log.Wf) (hrun : call.run pglog = some pglog') :
      Reached (us ++ call.updates pglog) pglog'

/-- The state in which nothing is missing. -/
def noNumbers : State O ℕ := { key := fun _ => none, owner := fun _ => none }

omit [LinearOrder O] in
theorem inverse_noNumbers : Inverse (noNumbers : State O ℕ) := fun _ _ =>
  ⟨nofun, nofun⟩

variable {us : List (Update O ℕ)}

theorem Reached.numbers_eq {pglog : PGLog O} (h : Reached us pglog) :
    pglog.missing.numbers = noNumbers.run us := by
  induction h with
  | empty hitems hrmissing =>
    unfold numbers
    rw [hitems, hrmissing]
    rfl
  | other _ hsame ih => rw [hsame, ih]
  | call c _ hwf hrun ih => rw [State.run_append, ← ih, MissingCall.numbers_run hwf hrun]

/-- **When `rmissing` is the inverse of `missing`.**  No update of another object put it
on the version number of a missing object, or took it off that number, after the last
update of that object; and no object that was missing at another number was added
without that number being used again. -/
theorem rmissingInverse_iff {pglog : PGLog O} (h : Reached us pglog) :
    pglog.missing.RmissingInverse ↔
      (∀ o, ¬ Clashed noNumbers us o) ∧ ∀ n, ¬ LeftBehind noNumbers us n := by
  rw [← PgMissing.inverse_numbers, h.numbers_eq, InverseIndex.inverse_run_iff inverse_noNumbers]

/-! ## Two logs that use a version number -/

/-- A log with the creation of one object, the first entry of its epoch. -/
def createLog (epoch : ℕ) (o : ℕ) : PgLog ℕ :=
  { head := ⟨epoch, 1⟩
    log := [{ op := .modify, soid := o, version := ⟨epoch, 1⟩, priorVersion := 0 }] }

/-- The info of a new placement group. -/
def newInfo : PgInfo ℕ := { lastUpdate := 0, lastComplete := 0, logTail := 0, lastBackfill := 1 }

/-- A log that merges the creation of an object. -/
def mergeCreate (epoch o : ℕ) : MissingCall ℕ := .rewind (.mergeLog (createLog epoch o)) newInfo

theorem emptyLog_wf : ({} : PGLog ℕ).log.Wf := by
  refine ⟨?_, ?_, ?_, ?_⟩ <;> dsimp only <;> decide

/-- The log after the creation of object 0 was merged. -/
def mergedLog : PGLog ℕ := ((mergeCreate 1 0).run {}).get (by decide +kernel)

theorem run_mergeCreate : (mergeCreate 1 0).run ({} : PGLog ℕ) = some mergedLog := (some_get _).symm

theorem mergedLog_wf : mergedLog.log.Wf :=
  ⟨by decide +kernel, by decide +kernel, by decide +kernel, by decide +kernel⟩

/-- Object 0 is merged as missing, object 1 is added, and object 0 is recovered. -/
theorem rmissingInverse_recovered : ∃ pglog, (mergeCreate 1 0).run ({} : PGLog ℕ) = some mergedLog ∧
    (MissingCall.recoverGot 0 ⟨1, 1⟩).run (mergedLog.missingAdd 1 ⟨1, 2⟩ 0) = some pglog ∧
    pglog.missing.RmissingInverse ∧ pglog.missing.rmissing.lookup 1 = none ∧
    pglog.missing.rmissing.lookup 2 = some 1 := by
  have hrun : ((MissingCall.recoverGot 0 ⟨1, 1⟩).run (mergedLog.missingAdd 1 ⟨1, 2⟩ 0)).map
      (fun pglog => (pglog.missing.rmissing.lookup 1, pglog.missing.rmissing.lookup 2)) =
      some (none, some 1) := by decide +kernel
  obtain ⟨pglog, hpglog, hlookup⟩ := of_map hrun
  obtain ⟨h1, h2⟩ := Prod.mk.inj hlookup
  have hreached : Reached (([.put 0 1] ++ [.add 1 2]) ++ [.remove 0]) pglog := by
    have h0 : Reached [.put 0 1] mergedLog :=
      .call (mergeCreate 1 0) (.empty rfl rfl) emptyLog_wf run_mergeCreate
    have h1 := h0.call (.missingAdd 1 ⟨1, 2⟩ 0) mergedLog_wf rfl
    have hgot : (MissingCall.recoverGot 0 ⟨1, 1⟩).updates (mergedLog.missingAdd 1 ⟨1, 2⟩ 0) =
        [.remove 0] := by
      rw [MissingCall.updates, if_pos (by decide +kernel)]
    exact hgot ▸ h1.call (.recoverGot 0 ⟨1, 1⟩) mergedLog_wf hpglog
  refine ⟨pglog, run_mergeCreate, hpglog, (rmissingInverse_iff hreached).2 ⟨?_, ?_⟩, h1, h2⟩
  · intro o
    rw [InverseIndex.clashed_concat, InverseIndex.clashed_concat, ← nil_append [Update.put 0 1],
      InverseIndex.clashed_concat]
    simp only [InverseIndex.not_clashed_nil, Update.object, InverseIndex.Touches, State.run,
      State.apply, noNumbers, Function.update_apply, nil_append, singleton_append, foldl_cons,
      foldl_nil]
    grind
  · intro n
    rw [InverseIndex.leftBehind_concat, InverseIndex.leftBehind_concat,
      ← nil_append [Update.put 0 1], InverseIndex.leftBehind_concat]
    simp [InverseIndex.not_leftBehind_nil, State.run, State.apply, noNumbers]

/-- The log is replaced by one that uses the same version number in a later epoch: the
object it creates is missing, and the object that was created first is removed with
the entry of the other one. -/
theorem rmissing_loses_entry :
    ∃ pglog pglog', (mergeCreate 1 0).run ({} : PGLog ℕ) = some pglog ∧ pglog.log.Wf ∧
      (mergeCreate 2 1).run pglog = some pglog' ∧ ¬ pglog'.missing.RmissingInverse := by
  have hrun : ((mergeCreate 2 1).run mergedLog).map (fun pglog =>
      (pglog.missing.items.lookup 1, pglog.missing.rmissing.lookup 1)) =
      some (some ⟨⟨2, 1⟩, 0⟩, none) := by decide +kernel
  obtain ⟨pglog, hpglog, hresult⟩ := of_map hrun
  obtain ⟨hitem, hentry⟩ := Prod.mk.inj hresult
  refine ⟨mergedLog, pglog, run_mergeCreate, mergedLog_wf, hpglog, fun h => ?_⟩
  have := (h 1 1).2 ⟨_, hitem, rfl⟩
  rw [hentry] at this
  cases this

end Ceph.Osd
