import Ceph.Osd.PGLogSteps

/-!
# The rollback boundary

Entries at or below `can_rollback_to` may have lost what is needed to roll them
back.  `rewind_from_head` lowers that boundary to the new head before
`_merge_divergent_entries` compares the divergent entries with it, and `merge_log`
moves it to the cut point, so that no divergent entry is ever held back by it.  The
results here say for which inputs that makes no difference, for the calls of the
handler and for what `proc_replica_log` assumes about the peer, which compares with
the boundary as it was.
-/

namespace Ceph.Osd

open List Option PGLog IndexedLog

variable {O : Type} [LinearOrder O]

/-! ## Calls that throw entries out -/

/-- A call that throws divergent entries out of a log. -/
inductive RewindCall (O : Type) where
  | rewindDivergentLog (newhead : EVersion)
  | mergeLog (olog : PgLog O)

open RewindCall

namespace RewindCall

def run (pglog : PGLog O) (info : PgInfo O) : RewindCall O → Option (Merged O)
  | .rewindDivergentLog newhead => pglog.rewindDivergentLog newhead info
  | .mergeLog olog => pglog.mergeLog olog info

/-- The version the log is cut at. -/
def cut (log : PgLog O) : RewindCall O → EVersion
  | .rewindDivergentLog newhead => newhead
  | .mergeLog olog =>
    if log.head < olog.head then (cutPoint log.head log.tail olog).1 else olog.head

/-- The entries that are appended. -/
def news (log : PgLog O) : RewindCall O → List (PgLogEntry O)
  | .rewindDivergentLog _ => []
  | .mergeLog olog =>
    if log.head < olog.head then (cutPoint log.head log.tail olog).2 else []

/-- The divergent entries of an object. -/
def divergentOf (log : PgLog O) (call : RewindCall O) (o : O) : List (PgLogEntry O) :=
  entriesOf o (log.divergent (call.cut log))

end RewindCall

/-! ## The state in which the divergent entries are merged -/

/-- What `_merge_divergent_entries` is called with, and what of the result comes from
it. -/
structure MergePhase (pglog : PGLog O) (info : PgInfo O) (call : RewindCall O) (r : Merged O) where
  log : IndexedLog O
  before : List (PgLogEntry O)
  info' : PgInfo O
  boundary : EVersion
  missing : PgMissing O
  earlier : List (HandlerCall O)
  merged : List (HandlerCall O)
  objects_eq : ∀ o, log.objects o = newest (before ++ call.news pglog.log.toPgLog) o
  before_lt : ∀ e ∈ before, ∀ p ∈ pglog.log.divergent (call.cut pglog.log.toPgLog),
    e.version < p.version
  lastBackfill_eq : info'.lastBackfill = info.lastBackfill
  boundary_le : boundary ≤ call.cut pglog.log.toPgLog
  cut_lt : ∀ p ∈ pglog.log.divergent (call.cut pglog.log.toPgLog),
    call.cut pglog.log.toPgLog < p.version
  append_eq : ∃ log₀ log₁ calls, appendLogEntriesUpdateMissing info.lastBackfill
    (call.news pglog.log.toPgLog) false log₀ pglog.missing = some (log₁, missing, calls)
  merge_eq : mergeDivergentEntries log (pglog.log.divergent (call.cut pglog.log.toPgLog)) info'
    boundary missing = some (r.pglog.missing, merged)
  calls_eq : r.calls = earlier ++ merged
  rollback_notMem : ∀ e, .rollback e ∉ earlier

variable {log : PgLog O}

omit [LinearOrder O] in
theorem PgLog.Wf.kept_lt_divergent (hwf : log.Wf) {cut : EVersion} {e p : PgLogEntry O}
    (he : e ∈ log.kept cut) (hp : p ∈ log.divergent cut) :
    e.version < p.version := by
  have hsorted := hwf.sorted
  rw [← log.kept_append_divergent cut, pairwise_append] at hsorted
  exact (hsorted.2.2 e he p hp).1

/-- `rewind_divergent_log`, also as `merge_log` calls it. -/
def MergePhase.ofRewind {pglog pglog' : PGLog O} {info info' : PgInfo O} {newhead : EVersion}
    {call : RewindCall O} {r : Merged O} (taken : List (PgLogEntry O)) (hwf : pglog.log.Wf)
    (hcut : call.cut pglog.log.toPgLog = newhead) (hnews : call.news pglog.log.toPgLog = [])
    (htail : pglog.log.tail ≤ newhead) (htaken : ∀ e ∈ taken, e.version ≤ pglog.log.tail)
    (hdiv : pglog'.log.divergent newhead = pglog.log.divergent newhead)
    (hkept : pglog'.log.kept newhead = taken ++ pglog.log.kept newhead)
    (hcutOk : pglog'.log.CutOk newhead)
    (hmissing : pglog'.missing = pglog.missing) (hlb : info'.lastBackfill = info.lastBackfill)
    (hmerge : mergeDivergentEntries (ofLog (pglog'.log.rewound newhead))
      (pglog'.log.divergent newhead) (info'.rewoundTo newhead)
      (min newhead pglog'.log.canRollbackTo) pglog'.missing = some (r.pglog.missing, r.calls)) :
    MergePhase pglog info call r where
  log := ofLog (pglog'.log.rewound newhead)
  before := taken ++ pglog.log.kept newhead
  info' := info'.rewoundTo newhead
  boundary := min newhead pglog'.log.canRollbackTo
  missing := pglog'.missing
  earlier := []
  merged := r.calls
  objects_eq := by
    intro o
    rw [hnews, append_nil, ← hkept]
    exact indexed_ofLog _ o
  before_lt := by
    intro e he p hp
    rw [hcut] at hp
    rcases mem_append.1 he with he | he
    · exact ((htaken e he).trans htail).trans_lt (hcutOk.2 p (hdiv ▸ hp))
    · exact hwf.kept_lt_divergent he hp
  lastBackfill_eq := by rw [PgInfo.lastBackfill_rewoundTo, hlb]
  boundary_le := hcut ▸ min_le_left _ _
  cut_lt := by
    intro p hp
    rw [hcut] at hp ⊢
    exact hcutOk.2 p (hdiv ▸ hp)
  append_eq := ⟨{}, {}, [], by rw [hnews, hmissing]; rfl⟩
  merge_eq := by rw [hcut, ← hdiv]; exact hmerge
  calls_eq := rfl
  rollback_notMem := fun _ => not_mem_nil

omit [LinearOrder O] in
theorem PgLog.Wf.divergent_head (hwf : log.Wf) : log.divergent log.head = [] := by
  refine eq_nil_iff_forall_not_mem.2 fun e he => ?_
  obtain ⟨hmem, hlt⟩ := hwf.mem_divergent.1 he
  exact absurd (hwf.le_head e hmem).2 hlt.not_ge

variable {olog : PgLog O}

section Run

variable {pglog : PGLog O} {info : PgInfo O} {call : RewindCall O} {r : Merged O}

section

variable (hwf : pglog.log.Wf)

include hwf

theorem mergePhase_rewindDivergentLog {newhead : EVersion}
    (hrun : pglog.rewindDivergentLog newhead info = some r) :
    Nonempty (MergePhase pglog info (.rewindDivergentLog newhead) r) := by
  obtain ⟨hcut, missing, calls, hmerge, rfl⟩ := rewindDivergentLog_eq_some.1 hrun
  exact ⟨.ofRewind [] hwf rfl rfl hcut.1 (by simp) rfl rfl hcut rfl rfl hmerge⟩

theorem mergePhase_mergeLog_behind (hover : pglog.log.tail ≤ olog.head)
    (hlt : olog.head < pglog.log.head)
    (hrun : (mergeTail ⟨pglog, info, [], false⟩ olog).1.pglog.rewindDivergentLog olog.head
      (mergeTail ⟨pglog, info, [], false⟩ olog).1.info = some r) :
    Nonempty (MergePhase pglog info (.mergeLog olog) r) := by
  obtain ⟨hcut, missing, calls, hmerge, rfl⟩ := rewindDivergentLog_eq_some.1 hrun
  have hlog := mergeTail_log ⟨pglog, info, [], false⟩ olog
  obtain ⟨hmissing, hlb, -⟩ := mergeTail_keeps ⟨pglog, info, [], false⟩ olog
  have hcut' : (pglog.log.extended olog).CutOk olog.head := hlog ▸ hcut
  refine ⟨.ofRewind (taken pglog.log.toPgLog olog) hwf (if_neg hlt.not_gt) (if_neg hlt.not_gt) hover
    (fun e he => le_tail_of_mem_taken he) ?_ ?_ hcut hmissing hlb hmerge⟩
  · rw [hlog]
    exact PgLog.divergent_extended hover hcut'
  · rw [hlog]
    exact PgLog.kept_extended hover hcut'

theorem mergePhase_mergeLog_equal (heq : olog.head = pglog.log.head) :
    Nonempty (MergePhase pglog info (.mergeLog olog)
      (mergeTail ⟨pglog, info, [], false⟩ olog).1) := by
  obtain ⟨hmissing, -, hcalls⟩ := mergeTail_keeps ⟨pglog, info, [], false⟩ olog
  have hcut : (mergeLog olog).cut pglog.log.toPgLog = pglog.log.head := by
    rw [cut, if_neg heq.not_gt, heq]
  have hnews : (mergeLog olog).news pglog.log.toPgLog = [] := if_neg heq.not_gt
  have hdiv : pglog.log.divergent ((mergeLog olog).cut pglog.log.toPgLog) = [] := by
    rw [hcut]
    exact hwf.divergent_head
  refine ⟨
    { log := ofLog {}, before := [], info' := info, boundary := 0
      missing := pglog.missing, earlier := [], merged := []
      objects_eq := fun o => by rw [hnews]; rfl
      before_lt := fun e he => absurd he not_mem_nil
      lastBackfill_eq := rfl
      boundary_le := EVersion.zero_le _
      cut_lt := fun p hp => absurd (hdiv ▸ hp) not_mem_nil
      append_eq := ⟨{}, {}, [], by rw [hnews]; rfl⟩
      merge_eq := ?_
      calls_eq := hcalls
      rollback_notMem := fun _ => not_mem_nil }⟩
  rw [hdiv, mergeDivergentEntries_nil, hmissing]

theorem mergePhase_mergeLog_ahead (hlt : pglog.log.head < olog.head) (hrun : mergeHead
      (mergeTail ⟨pglog, info, [], false⟩ olog).1 pglog.log.tail (mergeTail ⟨pglog,
      info, [], false⟩ olog).2 = some r) :
    Nonempty (MergePhase pglog info (.mergeLog olog) r) := by
  have hlog := mergeTail_log ⟨pglog, info, [], false⟩ olog
  obtain ⟨hmissing, hlb, hcalls⟩ := mergeTail_keeps ⟨pglog, info, [], false⟩ olog
  rw [mergeHead_eq_some, cutPoint_mergeTail info olog hwf.tail_le.1] at hrun
  obtain ⟨cut, hcut⟩ : ∃ cut, cut = (cutPoint pglog.log.head pglog.log.tail olog).1 := ⟨_, rfl⟩
  obtain ⟨news, hnews⟩ : ∃ news, news = (cutPoint pglog.log.head pglog.log.tail olog).2 :=
    ⟨_, rfl⟩
  have htail : pglog.log.tail ≤ cut := hcut ▸ (le_max_right _ _).trans (le_cutPoint ..)
  rw [← hcut, ← hnews, hmissing, hlb, hcalls] at hrun
  obtain ⟨hok, log, missing, appended, missing', merged, happend, hmerge, rfl⟩ := hrun
  have hok' : (pglog.log.extended olog).CutOk cut := hlog ▸ hok
  have hdiv := PgLog.divergent_extended htail hok'
  have hlogs := appendLogEntriesUpdateMissing_log happend
  replace hcut : (mergeLog olog).cut pglog.log.toPgLog = cut := hcut ▸ if_pos hlt
  replace hnews : (mergeLog olog).news pglog.log.toPgLog = news := hnews ▸ if_pos hlt
  refine ⟨
    { log := log, before := taken pglog.log.toPgLog olog ++ pglog.log.kept cut
      info' := _, boundary := log.canRollbackTo, missing := missing
      earlier := _, merged := merged
      objects_eq := ?_, before_lt := ?_
      lastBackfill_eq := hlb
      boundary_le := ?_, cut_lt := ?_, append_eq := ?_
      merge_eq := ?_
      calls_eq := rfl
      rollback_notMem := ?_ }⟩
  · -- the index was built from what was kept, and the new entries were added to it
    intro o
    have hindexed := hlogs.indexed (indexed_ofLog _) o
    rw [hindexed, hlogs.log_eq, hnews]
    change newest (PgLog.kept _ cut ++ news) o = _
    rw [hlog, PgLog.kept_extended htail hok']
  · intro e he p hp
    rw [hcut] at hp
    rcases mem_append.1 he with he | he
    · exact ((le_tail_of_mem_taken he).trans htail).trans_lt (hok'.2 p (hdiv ▸ hp))
    · exact hwf.kept_lt_divergent he hp
  · -- rolling forward raises the lowered boundary to the cut
    rw [hlogs.canRollbackTo_eq, rollForwardTo_canRollbackTo, hcut]
    exact max_le (min_le_left _ _) le_rfl
  · intro p hp
    rw [hcut] at hp ⊢
    exact hok'.2 p (hdiv ▸ hp)
  · rw [hnews]
    exact ⟨_, _, _, happend⟩
  · rwa [hcut, ← hdiv, ← hlog]
  · intro e he
    rw [nil_append] at he
    rcases mem_append.1 he with he | he
    · obtain ⟨e', he'⟩ := mem_rollForwardTo he
      cases he'
    · exact rollback_notMem_appendLogEntriesUpdateMissing happend he

/-- **Every call ends in one round over the divergent entries.** -/
theorem exists_mergePhase (hrun : call.run pglog info = some r) :
    Nonempty (MergePhase pglog info call r) := by
  cases call with
  | rewindDivergentLog newhead => exact mergePhase_rewindDivergentLog hwf hrun
  | mergeLog olog =>
    obtain ⟨-, hover, hcases⟩ := mergeLog_eq_some.1 hrun
    rcases hcases with ⟨hlt, hrun⟩ | ⟨heq, rfl⟩ | ⟨hlt, hrun⟩
    · exact mergePhase_mergeLog_behind hwf hover.2 hlt hrun
    · exact mergePhase_mergeLog_equal hwf heq
    · exact mergePhase_mergeLog_ahead hwf hlt hrun

end

end Run

/-! ## Which objects are up for a rollback -/

/-- Nothing but the entries themselves decides whether the object is rolled back: it
is not beyond the backfill, not missing, written by no new entry, and its divergent
entries do not begin with its creation. -/
structure UpForRollback (pglog : PGLog O) (info : PgInfo O) (call : RewindCall O) (o : O)
    (front : PgLogEntry O) : Prop where
  head?_eq : (call.divergentOf pglog.log.toPgLog o).head? = some front
  le_lastBackfill : o ≤ info.lastBackfill
  not_missing : pglog.missing.items.lookup o = none
  not_written : ∀ p ∈ call.news pglog.log.toPgLog, p.soid = o → p.isError
  priorVersion_ne : front.priorVersion ≠ 0
  not_clone : ¬ front.isClone

/-- No divergent entry at or below `can_rollback_to` is one of an object all of whose
divergent entries could be rolled back. -/
def NoneBelowBoundary (pglog : PGLog O) (info : PgInfo O) (call : RewindCall O) : Prop :=
  ∀ o front, UpForRollback pglog info call o front →
    (∀ e ∈ call.divergentOf pglog.log.toPgLog o, e.canRollback) →
    ∀ e ∈ call.divergentOf pglog.log.toPgLog o, pglog.log.canRollbackTo < e.version

variable {front : PgLogEntry O} {o : O}

section Cases

variable {pglog : PGLog O} {info : PgInfo O} {call : RewindCall O} {r : Merged O}

section

variable (phase : MergePhase pglog info call r)

include phase

/-- Objects none of whose new entries counts have the items they had. -/
theorem MergePhase.lookup_eq
    (ho : ∀ p ∈ call.news pglog.log.toPgLog, p.soid = o → ¬ Counts info.lastBackfill p) :
    phase.missing.items.lookup o = pglog.missing.items.lookup o := by
  obtain ⟨log₀, log₁, calls, happend⟩ := phase.append_eq
  exact (appendLogEntriesUpdateMissing_of_not_counts happend ho).1

theorem MergePhase.moreRecent_eq (hwf : pglog.log.Wf)
    (hfront : front ∈ call.divergentOf pglog.log.toPgLog o) :
    moreRecent phase.log o front = newest (call.news pglog.log.toPgLog) o := by
  have hdiv := (mem_entriesOf.1 hfront).1
  refine moreRecent_eq_newest (phase.objects_eq o)
    (fun e he => phase.before_lt e he front hdiv) fun n hmem => ?_
  -- a new entry is newer than the head of the old log
  have hlt : pglog.log.head < n.version := by
    cases call with
    | rewindDivergentLog newhead => exact absurd hmem not_mem_nil
    | mergeLog olog =>
      rw [news] at hmem
      split at hmem
      · exact lt_of_mem_new hmem
      · exact absurd hmem not_mem_nil
  exact ((hwf.le_head front (hwf.mem_divergent.1 hdiv).1).1.trans_lt hlt).le

/-- An object up for a rollback is rolled back if its entries can be, whatever the
boundary was. -/
theorem MergePhase.divergentCase_eq (hwf : pglog.log.Wf)
    (hup : UpForRollback pglog info call o front) :
    ∃ kind, divergentCase phase.log phase.info' phase.boundary o
        (call.divergentOf pglog.log.toPgLog o) (phase.missing.items.lookup o) = some kind ∧
      phase.missing.items.lookup o = none ∧
      kind = if ∀ e ∈ call.divergentOf pglog.log.toPgLog o, e.canRollback then .canRollback
        else .cannotRollback := by
  have hne : entriesOf o (pglog.log.divergent (call.cut pglog.log.toPgLog)) ≠ [] := by
    intro hnil
    have := hup.head?_eq
    rw [divergentOf, hnil] at this
    cases this
  have hitem : phase.missing.items.lookup o = none := by
    rw [phase.lookup_eq fun p hp ho hc => hc.2 (hup.not_written p hp ho)]
    exact hup.not_missing
  obtain ⟨kind, hkind, -⟩ := mergeDivergentEntries_of_ne_nil phase.merge_eq hne
  refine ⟨kind, hkind, hitem, ?_⟩
  have hroll : Rollable phase.boundary (call.divergentOf pglog.log.toPgLog o) ↔
      ∀ e ∈ call.divergentOf pglog.log.toPgLog o, e.canRollback :=
    forall₂_congr fun e he =>
      ⟨fun h => h.1, fun h => ⟨h, phase.boundary_le.trans_lt
        (phase.cut_lt e (mem_entriesOf.1 he).1)⟩⟩
  have hrecent := phase.moreRecent_eq hwf (mem_of_mem_head? hup.head?_eq)
  rw [newest_eq_none_iff.2 hup.not_written] at hrecent
  rcases divergentCase_eq_some.1 hkind with ⟨hlt, -⟩ | ⟨-, front', rest, hcons, -, hcase⟩
  · exact absurd (phase.lastBackfill_eq ▸ hlt) hup.le_lastBackfill.not_gt
  have hfront : front' = front := by
    have hhead := hup.head?_eq
    rw [divergentOf, hcons] at hhead
    exact some_inj.1 hhead
  subst hfront
  rcases hcase with ⟨obj, hobj, -⟩ | ⟨-, rfl⟩
  · rw [hrecent] at hobj
    cases hobj
  · rw [hitem, oldCase, ← hcons, if_neg (by simp [hup.priorVersion_ne, hup.not_clone])]
    simp only [isSome_none, Bool.false_eq_true, if_false]
    exact if_congr hroll rfl rfl

theorem MergePhase.upForRollback (hwf : pglog.log.Wf)
    (hkind : divergentCase phase.log phase.info' phase.boundary o
      (call.divergentOf pglog.log.toPgLog o) (phase.missing.items.lookup o) = some .canRollback) :
    (∃ front, UpForRollback pglog info call o front) ∧
      ∀ e ∈ call.divergentOf pglog.log.toPgLog o, e.canRollback := by
  rcases divergentCase_eq_some.1 hkind with ⟨-, h⟩ | ⟨hle, front, rest, hcons, -, hcase⟩
  · cases h
  rcases hcase with ⟨-, -, -, -, h⟩ | ⟨hrecent, hcase⟩
  · cases h
  obtain ⟨⟨hprior, hclone⟩, hitem, hroll⟩ := oldCase_eq_canRollback.1 hcase.symm
  have hmem : front ∈ call.divergentOf pglog.log.toPgLog o := hcons ▸ mem_cons_self ..
  rw [phase.moreRecent_eq hwf hmem, newest_eq_none_iff] at hrecent
  rw [phase.lookup_eq fun p hp ho hc => hc.2 (hrecent p hp ho)] at hitem
  refine ⟨⟨front, by rw [hcons]; rfl, phase.lastBackfill_eq ▸ hle, hitem, hrecent, hprior,
    hclone⟩, fun e he => ?_⟩
  rw [hcons] at he
  exact (hroll e he).1

end

end Cases

/-! ## The handler -/

/-- The handler rolls back only above `can_rollback_to`, and an object with a divergent
entry at or below it is removed (unless it was deleted last, and is not there) and
added to the missing ones at its prior version. -/
structure RollbackSafe (pglog : PGLog O) (info : PgInfo O) (call : RewindCall O) (r : Merged O) :
    Prop where
  above : ∀ e, .rollback e ∈ r.calls → pglog.log.canRollbackTo < e.version ∧ e.canRollback
  removed : ∀ o front, UpForRollback pglog info call o front →
    (∃ e ∈ call.divergentOf pglog.log.toPgLog o, e.version ≤ pglog.log.canRollbackTo) →
    r.pglog.missing.items.lookup o = some ⟨front.priorVersion, 0⟩ ∧ (.remove o ∈ r.calls ∨
        ∃ e, (call.divergentOf pglog.log.toPgLog o).getLast? = some e ∧ e.isDelete)

/-- **Rollbacks respect the boundary exactly where it does not matter.**  No call
compares with `can_rollback_to` as it was: an object whose divergent entries can all
be rolled back is rolled back. -/
theorem rollbackSafe_iff {pglog : PGLog O} {info : PgInfo O} {call : RewindCall O} {r : Merged O}
    (hwf : pglog.log.Wf) (hrun : call.run pglog info = some r) :
    RollbackSafe pglog info call r ↔ NoneBelowBoundary pglog info call := by
  obtain ⟨phase⟩ := exists_mergePhase hwf hrun
  have hcalls : ∀ o, callsFor o phase.merged ⊆ r.calls := fun o call hcall => by
    rw [phase.calls_eq]
    exact mem_append_right _ (mem_of_mem_filter hcall)
  constructor
  · intro hsafe o front hup hcan e he
    obtain ⟨kind, hkind, -, hkindEq⟩ := phase.divergentCase_eq hwf hup
    rw [if_pos hcan] at hkindEq
    subst hkindEq
    obtain ⟨kind, hkind', -, hfor⟩ := mergeDivergentEntries_of_ne_nil phase.merge_eq
      (ne_nil_of_mem he)
    obtain rfl : kind = .canRollback := some_inj.1 (hkind'.symm.trans hkind)
    refine (hsafe.above e (hcalls o ?_)).1
    rw [hfor, Decision.rollback_mem_calls]
    exact ⟨rfl, he⟩
  · intro hnone
    refine ⟨fun e he => ?_, ?_⟩
    · rw [phase.calls_eq, mem_append] at he
      have he := he.resolve_left (phase.rollback_notMem e)
      have hfor : .rollback e ∈ callsFor e.soid phase.merged :=
        mem_filter.2 ⟨he, by simp [HandlerCall.target]⟩
      by_cases hdiv : call.divergentOf pglog.log.toPgLog e.soid = []
      · rw [(mergeDivergentEntries_of_nil phase.merge_eq hdiv).2] at hfor
        exact absurd hfor not_mem_nil
      obtain ⟨kind, hkind, -, hcallsFor⟩ := mergeDivergentEntries_of_ne_nil phase.merge_eq hdiv
      rw [hcallsFor, Decision.rollback_mem_calls] at hfor
      obtain ⟨rfl, hmem⟩ := hfor
      obtain ⟨⟨front, hup⟩, hcan⟩ := phase.upForRollback hwf hkind
      exact ⟨hnone e.soid front hup hcan e hmem, hcan e hmem⟩
    · rintro o front hup ⟨e, he, hle⟩
      have hcan : ¬ ∀ e ∈ call.divergentOf pglog.log.toPgLog o, e.canRollback := fun hcan =>
        absurd (hnone o front hup hcan e he) hle.not_gt
      obtain ⟨kind, hkind, -, hkindEq⟩ := phase.divergentCase_eq hwf hup
      rw [if_neg hcan] at hkindEq
      subst hkindEq
      obtain ⟨kind, hkind', hafter, hfor⟩ := mergeDivergentEntries_of_ne_nil phase.merge_eq
        (ne_nil_of_mem he)
      obtain rfl : kind = .cannotRollback := some_inj.1 (hkind'.symm.trans hkind)
      have hprior : (entriesOf o (pglog.log.divergent (call.cut pglog.log.toPgLog))).head? =
          some front := hup.head?_eq
      constructor
      · rw [hafter, Decision.itemAfter, Decision.prior, hprior]
        rfl
      · have hne : call.divergentOf pglog.log.toPgLog o ≠ [] := ne_nil_of_mem he
        cases hdel : ((call.divergentOf pglog.log.toPgLog o).getLast hne).isDelete with
        | true => exact .inr ⟨_, List.getLast?_eq_some_getLast hne, hdel⟩
        | false =>
          refine .inl (hcalls o ?_)
          rw [hfor, Decision.calls, removeAndTrim, Decision.notInStore]
          change HandlerCall.remove o ∈
            (if _ && ((call.divergentOf pglog.log.toPgLog o).getLast?.map
            (·.isDelete)).getD false then [] else [HandlerCall.remove o]) ++ _
          rw [List.getLast?_eq_some_getLast hne]
          simp [hdel]

/-- A log of two writes of one object, the second of which can be rolled back. -/
def twoWrites (canRollbackTo : EVersion) : PgLog ℕ :=
  { head := ⟨1, 2⟩
    canRollbackTo := canRollbackTo
    log :=
      [{ op := .modify, soid := 0, version := ⟨1, 1⟩, priorVersion := 0 },
       { op := .modify, soid := 0, version := ⟨1, 2⟩, priorVersion := ⟨1, 1⟩ }] }

/-- The info that goes with it. -/
def twoWritesInfo : PgInfo ℕ :=
  { lastUpdate := ⟨1, 2⟩, lastComplete := ⟨1, 2⟩, logTail := 0, lastBackfill := 0 }

theorem twoWrites_wf (canRollbackTo : EVersion) : (twoWrites canRollbackTo).Wf := by
  refine ⟨?_, ?_, ?_, ?_⟩ <;> dsimp only [twoWrites] <;> decide

theorem rollbackSafe_twoWrites :
    ∃ r, (RewindCall.rewindDivergentLog ⟨1, 1⟩).run { log := .ofLog (twoWrites 0) } twoWritesInfo =
        some r ∧ RollbackSafe { log := .ofLog (twoWrites 0) } twoWritesInfo
        (.rewindDivergentLog ⟨1, 1⟩) r := by
  have hrun : ((RewindCall.rewindDivergentLog ⟨1, 1⟩).run { log := .ofLog (twoWrites 0) }
      twoWritesInfo).isSome := by decide +kernel
  obtain ⟨r, hr⟩ := isSome_iff_exists.1 hrun
  refine ⟨r, hr, (rollbackSafe_iff (twoWrites_wf 0) hr).2 ?_⟩
  intro o front _ _ e he
  have hmem := ((twoWrites_wf 0).mem_divergent.1 (mem_entriesOf.1 he).1).1
  exact ((twoWrites_wf 0).tail_precedes e hmem).1

/-- An entry at the boundary is rolled back. -/
theorem rollback_at_boundary :
    ∃ r, (RewindCall.rewindDivergentLog ⟨1, 1⟩).run { log := .ofLog (twoWrites ⟨1, 2⟩) }
        twoWritesInfo = some r ∧ ¬ RollbackSafe { log := .ofLog (twoWrites ⟨1, 2⟩) } twoWritesInfo
        (.rewindDivergentLog ⟨1, 1⟩) r := by
  have hrun : ((RewindCall.rewindDivergentLog ⟨1, 1⟩).run { log := .ofLog (twoWrites ⟨1, 2⟩) }
      twoWritesInfo).map (·.calls) =
      some [.rollback { op := .modify, soid := 0, version := ⟨1, 2⟩, priorVersion := ⟨1, 1⟩ }] := by
    decide +kernel
  obtain ⟨r, hr, hcalls⟩ := of_map hrun
  refine ⟨r, hr, fun hsafe => ?_⟩
  have habove := (hsafe.above _ (by rw [hcalls]; exact mem_singleton_self _)).1
  exact absurd habove (by decide)

/-! ## The primary's view of a replica -/

/-- The last version both have, as the primary sees it. -/
def PGLog.sharedVersion (log olog : PgLog O) : EVersion :=
  if olog.head = log.head then olog.head else lastShared log olog

omit [LinearOrder O] in
theorem PGLog.lastShared_le (htail : log.tail ≤ olog.head) (hotail : olog.tail ≤ olog.head) :
    lastShared log olog ≤ olog.head := by
  unfold lastShared
  dsimp only
  split
  · exact max_le hotail htail
  rename_i e he
  split
  · exact max_le hotail htail
  have hne : log.log.rdropWhile (fun e => decide (olog.head < e.version)) ≠ [] := by
    intro hnil
    rw [hnil] at he
    cases he
  have hlast := rdropWhile_last_not _ _ hne
  rw [List.getLast?_eq_some_getLast hne] at he
  cases he
  simpa using hlast

omit [LinearOrder O] in
/-- The missing set and the version both sides arrive at are the same. -/
structure ViewsAgree (oinfo : PgInfo O) (omissing : PgMissing O) (r : Merged O) : Prop where
  items_eq : omissing.items = r.pglog.missing.items
  rmissing_eq : omissing.rmissing = r.pglog.missing.rmissing
  lastUpdate_eq : oinfo.lastUpdate = r.info.lastUpdate

/-- Above the boundary, comparing with the lowered boundary makes no difference. -/
theorem decideAll_congr_boundary {peer : PGLog O} {oinfo info' : PgInfo O} {lu : EVersion}
    (hlb : info'.lastBackfill = oinfo.lastBackfill)
    (hnone : NoneBelowBoundary peer oinfo (.rewindDivergentLog lu)) (log : IndexedLog O) :
    decideAll log oinfo peer.log.canRollbackTo peer.missing (peer.log.divergent lu) =
      decideAll log info' (min lu peer.log.canRollbackTo) peer.missing (peer.log.divergent lu) := by
  refine Loop.mapM_congr ?_
  rintro ⟨o, es⟩ hmem
  obtain ⟨rfl, -⟩ := mem_splitByObject.1 hmem
  -- the boundary is looked at only for an object that is up for a rollback
  have hold : o ≤ oinfo.lastBackfill → ∀ front rest,
      entriesOf o (peer.log.divergent lu) = front :: rest →
      oldCase peer.log.canRollbackTo front rest (peer.missing.items.lookup o) =
        oldCase (min lu peer.log.canRollbackTo) front rest (peer.missing.items.lookup o) := by
    intro hle front rest hcons
    refine oldCase_congr fun hcr hitem => ⟨fun h e he => ?_, fun h e he => ?_⟩
    · exact ⟨(h e he).1, (min_le_right _ _).trans_lt (h e he).2⟩
    · have hup : UpForRollback peer oinfo (.rewindDivergentLog lu) o front :=
        ⟨by rw [divergentOf, cut, hcons]; rfl, hle, hitem,
          fun p hp => absurd hp not_mem_nil, hcr.1, hcr.2⟩
      have habove := hnone o front hup
      rw [divergentOf, cut, hcons] at habove
      exact ⟨(h e he).1, habove (fun e he => (h e he).1) e he⟩
  have hcase : ∀ kind,
      divergentCase log oinfo peer.log.canRollbackTo o (entriesOf o (peer.log.divergent lu))
          (peer.missing.items.lookup o) = some kind ↔
        divergentCase log info' (min lu peer.log.canRollbackTo) o
          (entriesOf o (peer.log.divergent lu)) (peer.missing.items.lookup o) = some kind := by
    intro kind
    rw [divergentCase_eq_some, divergentCase_eq_some, hlb]
    refine or_congr_right (and_congr_right fun hle => ?_)
    refine exists₂_congr fun front rest => and_congr_right fun hcons => ?_
    rw [hold hle front rest hcons]
  rw [decideObject, decideObject, Option.ext hcase]

/-- With any boundary, that is what decides about an object up for a rollback. -/
theorem divergentCase_of_up {peer : PGLog O} {oinfo info' : PgInfo O} {lu boundary : EVersion}
    {kind : DivergentCase} (hwf : peer.log.Wf)
    (hlb : info'.lastBackfill = oinfo.lastBackfill)
    (hup : UpForRollback peer oinfo (.rewindDivergentLog lu) o front)
    (hkind : divergentCase (ofLog (peer.log.rewound lu)) info' boundary o
      (entriesOf o (peer.log.divergent lu)) (peer.missing.items.lookup o) = some kind) :
    kind = if Rollable boundary (entriesOf o (peer.log.divergent lu)) then .canRollback
      else .cannotRollback := by
  have hhead : (entriesOf o (peer.log.divergent lu)).head? = some front := hup.head?_eq
  rcases divergentCase_eq_some.1 hkind with ⟨hlt, -⟩ | ⟨-, front', rest, hcons, -, hcase⟩
  · exact absurd (hlb ▸ hlt) hup.le_lastBackfill.not_gt
  obtain rfl : front' = front := by
    rw [hcons] at hhead
    exact some_inj.1 hhead
  rcases hcase with ⟨obj, hobj, -⟩ | ⟨-, rfl⟩
  · -- what was kept is older than what is divergent
    obtain ⟨hobj, hle⟩ := filter_eq_some_iff.1 hobj
    rw [indexed_ofLog] at hobj
    have hfront : front' ∈ peer.log.divergent lu :=
      (mem_entriesOf.1 (mem_of_mem_head? hhead)).1
    have hlt := hwf.kept_lt_divergent (newest_eq_some hobj).1 hfront
    exact absurd (of_decide_eq_true hle) hlt.not_ge
  · rw [hup.not_missing, oldCase, ← hcons, if_neg (by simp [hup.priorVersion_ne, hup.not_clone])]
    rfl

section Agree

variable {peer : PGLog O} {oinfo : PgInfo O} {lu : EVersion} {omissing : PgMissing O}
  {calls : List (HandlerCall O)} {r : Merged O}

theorem exists_rewind_of_merge (hcut : peer.log.CutOk lu)
    (hmerge : mergeDivergentEntries (ofLog (peer.log.rewound lu)) (peer.log.divergent lu)
      oinfo peer.log.canRollbackTo peer.missing = some (omissing, calls)) :
    ∃ r, peer.rewindDivergentLog lu oinfo = some r := by
  have hsome : ∀ o, entriesOf o (peer.log.divergent lu) ≠ [] →
      (divergentCase (ofLog (peer.log.rewound lu)) (oinfo.rewoundTo lu)
        (min lu peer.log.canRollbackTo) o (entriesOf o (peer.log.divergent lu))
        (peer.missing.items.lookup o)).isSome := by
    intro o ho
    obtain ⟨kind, hkind, -⟩ := mergeDivergentEntries_of_ne_nil hmerge ho
    exact isSome_divergentCase_congr (PgInfo.lastBackfill_rewoundTo oinfo lu)
      (isSome_iff_exists.2 ⟨kind, hkind⟩)
  obtain ⟨missing', calls', hmerge'⟩ := exists_mergeDivergentEntries hsome
  exact ⟨_, rewindDivergentLog_eq_some.2 ⟨hcut, missing', calls', hmerge', rfl⟩⟩

theorem items_eq_iff_noneBelow (hwf : peer.log.Wf)
    (hmerge : mergeDivergentEntries (ofLog (peer.log.rewound lu)) (peer.log.divergent lu)
      oinfo peer.log.canRollbackTo peer.missing = some (omissing, calls))
    (hrun : peer.rewindDivergentLog lu oinfo = some r) :
    (omissing.items = r.pglog.missing.items ∧ omissing.rmissing = r.pglog.missing.rmissing) ↔
      NoneBelowBoundary peer oinfo (.rewindDivergentLog lu) := by
  obtain ⟨hcut, missing', calls', hmerge', rfl⟩ := rewindDivergentLog_eq_some.1 hrun
  have hlb := PgInfo.lastBackfill_rewoundTo oinfo lu
  constructor
  · rintro ⟨hitems, -⟩ o front hup hcan e he
    by_contra hle
    obtain ⟨kind, hkind, hitem, -⟩ := mergeDivergentEntries_of_ne_nil hmerge (ne_nil_of_mem he)
    obtain ⟨kind', hkind', hitem', -⟩ :=
      mergeDivergentEntries_of_ne_nil hmerge' (ne_nil_of_mem he)
    have hnot : ¬ Rollable peer.log.canRollbackTo (entriesOf o (peer.log.divergent lu)) :=
      fun h => hle (h e he).2
    have hroll : Rollable (min lu peer.log.canRollbackTo) (entriesOf o (peer.log.divergent lu)) :=
      fun e he => ⟨hcan e he, (min_le_left _ _).trans_lt (hcut.2 e (mem_entriesOf.1 he).1)⟩
    obtain rfl := (divergentCase_of_up hwf rfl hup hkind).trans (if_neg hnot)
    obtain rfl := (divergentCase_of_up hwf hlb hup hkind').trans (if_pos hroll)
    -- the primary adds the object, the peer does not
    rw [← hitems, hitem, hup.not_missing] at hitem'
    cases hitem'
  · intro hnone
    rw [mergeDivergentEntries_eq, decideAll_congr_boundary hlb hnone,
      ← mergeDivergentEntries_eq, hmerge'] at hmerge
    cases hmerge
    exact ⟨rfl, rfl⟩

end Agree

/-- **The primary knows what the peer will miss exactly where the boundary does not
matter.**  Both rewind to the same version, but the primary compares the entries with
the boundary the peer had before. -/
theorem procReplicaLog_agrees_iff (log : PgLog O) (peer : PGLog O) {oinfo oinfo' : PgInfo O}
    {omissing' : PgMissing O} (hwf : peer.log.Wf) (hover : log.tail ≤ peer.log.head)
    (hinfo : oinfo.lastUpdate = peer.log.head)
    (hproc : PGLog.procReplicaLog log oinfo peer.log.toPgLog peer.missing =
      some (oinfo', omissing')) :
    ∃ r, peer.rewindDivergentLog (PGLog.sharedVersion log peer.log.toPgLog) oinfo = some r ∧
      (ViewsAgree oinfo' omissing' r ↔ NoneBelowBoundary peer oinfo
        (.rewindDivergentLog (PGLog.sharedVersion log peer.log.toPgLog))) := by
  unfold PGLog.procReplicaLog at hproc
  rw [if_neg hover.not_gt] at hproc
  unfold PGLog.sharedVersion
  by_cases hhead : peer.log.head = log.head
  · -- nothing is divergent, and nothing is done
    rw [if_pos hhead] at hproc ⊢
    cases hproc
    have hdiv := hwf.divergent_head
    have hcut : peer.log.CutOk peer.log.head :=
      ⟨hwf.tail_le.1, fun p hp => absurd (hdiv ▸ hp) not_mem_nil⟩
    refine ⟨_, PGLog.rewindDivergentLog_eq_some.2
      ⟨hcut, peer.missing, [], by rw [hdiv, mergeDivergentEntries_nil], rfl⟩, ?_⟩
    refine iff_of_true ⟨rfl, rfl, ?_⟩ fun o front _ _ e he => ?_
    · exact hinfo
    · rw [RewindCall.divergentOf, RewindCall.cut, hdiv] at he
      exact absurd he not_mem_nil
  · rw [if_neg hhead] at hproc ⊢
    obtain ⟨⟨folog, divergent⟩, hrewind, hproc⟩ := of_bind hproc
    obtain ⟨hcut, rfl, rfl⟩ := IndexedLog.rewindFromHead_eq_some.1 hrewind
    obtain ⟨⟨omissing, calls⟩, hmerge, hproc⟩ := of_bind hproc
    obtain ⟨lastComplete, -, hproc⟩ := of_bind hproc
    cases hproc
    obtain ⟨r, hr⟩ := exists_rewind_of_merge hcut hmerge
    refine ⟨r, hr, ?_⟩
    rw [← items_eq_iff_noneBelow hwf hmerge hr]
    refine ⟨fun h => ⟨h.items_eq, h.rmissing_eq⟩, fun h => ⟨h.1, h.2, ?_⟩⟩
    obtain ⟨-, -, -, -, rfl⟩ := PGLog.rewindDivergentLog_eq_some.1 hr
    have hle := PGLog.lastShared_le hover hwf.tail_le.1
    split
    · rfl
    · rename_i hlt
      exact le_antisymm (not_lt.1 hlt) (hinfo ▸ hle)

/-- The log of a primary that has only the first of the two writes. -/
def oneWrite : PgLog ℕ :=
  { head := ⟨1, 1⟩
    log := [{ op := .modify, soid := 0, version := ⟨1, 1⟩, priorVersion := 0 }] }

theorem procReplicaLog_agrees_twoWrites : ∃ oinfo' omissing' r,
      PGLog.procReplicaLog oneWrite twoWritesInfo (twoWrites 0) {} = some (oinfo', omissing') ∧
      ({ log := .ofLog (twoWrites 0) } : PGLog ℕ).rewindDivergentLog
        (PGLog.sharedVersion oneWrite (twoWrites 0)) twoWritesInfo = some r ∧
      ViewsAgree oinfo' omissing' r := by
  have hproc : (PGLog.procReplicaLog oneWrite twoWritesInfo (twoWrites 0) {}).isSome := by
    decide +kernel
  obtain ⟨⟨oinfo', omissing'⟩, hproc⟩ := isSome_iff_exists.1 hproc
  obtain ⟨r, hr, hiff⟩ := procReplicaLog_agrees_iff oneWrite { log := .ofLog (twoWrites 0) }
    (twoWrites_wf 0) (by decide) rfl hproc
  refine ⟨oinfo', omissing', r, hproc, hr, hiff.2 ?_⟩
  intro o front _ _ e he
  have hmem := ((twoWrites_wf 0).mem_divergent.1 (mem_entriesOf.1 he).1).1
  exact ((twoWrites_wf 0).tail_precedes e hmem).1

/-- The primary takes the object for missing, the peer rolls it back. -/
theorem procReplicaLog_differs :
    ∃ oinfo' omissing' r, PGLog.procReplicaLog oneWrite twoWritesInfo (twoWrites ⟨1, 2⟩) {} =
        some (oinfo', omissing') ∧
      ({ log := .ofLog (twoWrites ⟨1, 2⟩) } : PGLog ℕ).rewindDivergentLog
        (PGLog.sharedVersion oneWrite (twoWrites ⟨1, 2⟩)) twoWritesInfo = some r ∧
      ¬ ViewsAgree oinfo' omissing' r := by
  have hproc : (PGLog.procReplicaLog oneWrite twoWritesInfo (twoWrites ⟨1, 2⟩) {}).map
      (·.2.items.lookup 0) = some (some ⟨⟨1, 1⟩, 0⟩) := by decide +kernel
  have hrun : (({ log := .ofLog (twoWrites ⟨1, 2⟩) } : PGLog ℕ).rewindDivergentLog
      (PGLog.sharedVersion oneWrite (twoWrites ⟨1, 2⟩)) twoWritesInfo).map
      (·.pglog.missing.items.lookup 0) = some none := by decide +kernel
  obtain ⟨⟨oinfo', omissing'⟩, hproc, hitem⟩ := of_map hproc
  obtain ⟨r, hr, hitem'⟩ := of_map hrun
  refine ⟨oinfo', omissing', r, hproc, hr, fun h => ?_⟩
  rw [← h.items_eq, hitem] at hitem'
  cases hitem'

end Ceph.Osd
