import Ceph.Osd.PGLogDivergence

/-!
# The steps of merging and rewinding

One specification for each step `merge_log` and `rewind_divergent_log` are made of:
cutting the log, appending entries, extending the tail.  The index by object always
holds the newest entry of an object that is not an error.
-/

namespace Ceph.Osd

open List Option IndexedLog PGLog PgMissing SortedList

/-! ## Order along a log -/

/-- Later in the order of versions and with a larger version number, as it is along
a log. -/
def EVersion.Precedes (a b : EVersion) : Prop := a < b ∧ a.version < b.version

instance (a b : EVersion) : Decidable (a.Precedes b) := inferInstanceAs (Decidable (_ ∧ _))

variable {O : Type}

/-- The entries of a log lie in order between its tail and its head. -/
structure PgLog.Wf (log : PgLog O) : Prop where
  sorted : log.log.Pairwise fun a b => a.version.Precedes b.version
  tail_precedes : ∀ e ∈ log.log, log.tail.Precedes e.version
  le_head : ∀ e ∈ log.log, e.version ≤ log.head ∧ e.version.version ≤ log.head.version
  tail_le : log.tail ≤ log.head ∧ log.tail.version ≤ log.head.version

/-! ## The index -/

variable {e : PgLogEntry O} {cut : EVersion} {o : O}

section

variable [DecidableEq O] (entries : List (PgLogEntry O))

/-- The newest entry of an object that is not an error. -/
def newest (o : O) : Option (PgLogEntry O) :=
  ((entriesOf o entries).filter fun e => !e.isError).getLast?

@[simp] theorem newest_nil (o : O) : newest ([] : List (PgLogEntry O)) o = none := rfl

theorem newest_append (a b : List (PgLogEntry O)) (o : O) :
    newest (a ++ b) o = (newest b o).or (newest a o) := by
  simp only [newest, entriesOf_append, filter_append, List.getLast?_append]

theorem newest_concat (e : PgLogEntry O) (o : O) :
    newest (entries ++ [e]) o = if e.soid = o ∧ ¬ e.isError then some e else newest entries o := by
  rw [newest_append, newest, entriesOf, filter_singleton]
  by_cases ho : e.soid = o
  · cases he : e.isError <;> simp [ho, he]
  · simp [ho]

theorem newest_eq_some {entries : List (PgLogEntry O)} (h : newest entries o = some e) :
    e ∈ entries ∧ e.soid = o ∧ e.isError = false := by
  have hmem := mem_of_mem_getLast? h
  rw [mem_filter, mem_entriesOf] at hmem
  exact ⟨hmem.1.1, hmem.1.2, by simpa using hmem.2⟩

theorem newest_eq_none_iff {entries : List (PgLogEntry O)} :
    newest entries o = none ↔ ∀ e ∈ entries, e.soid = o → e.isError := by
  rw [newest, List.getLast?_eq_none_iff, filter_eq_nil_iff]
  simp only [mem_entriesOf, and_imp]
  exact forall₃_congr fun e _ _ => by cases e.isError <;> simp

/-- The index holds the newest entries. -/
def IndexedLog.Indexed (log : IndexedLog O) : Prop := ∀ o, log.objects o = newest log.log o

/-- Only a new entry is more recent than divergent ones. -/
theorem moreRecent_eq_newest {log : IndexedLog O} {front : PgLogEntry O}
    {before news : List (PgLogEntry O)} (hobj : log.objects o = newest (before ++ news) o)
    (hbefore : ∀ e ∈ before, e.version < front.version)
    (hnews : ∀ e ∈ news, front.version ≤ e.version) : moreRecent log o front = newest news o := by
  rw [moreRecent, hobj, newest_append]
  cases hnew : newest news o with
  | some n => simp [Option.filter, hnews n (newest_eq_some hnew).1]
  | none =>
    cases hold : newest before o with
    | none => rfl
    | some e => simp [Option.filter, (hbefore e (newest_eq_some hold).1).not_ge]

theorem IndexedLog.indexAll_eq : indexAll entries = newest entries := by
  refine Loop.foldl_invariant (fun pre objects => objects = newest pre) rfl ?_
  rintro pre e - objects - rfl
  funext o
  rw [newest_concat, PgLogEntry.objectIsIndexed]
  by_cases ho : e.soid = o
  · subst ho
    cases he : e.isError <;> simp
  · cases he : e.isError <;> simp [ho, Function.update_of_ne (Ne.symm ho)]

variable (log : PgLog O)

theorem IndexedLog.indexed_ofLog : (ofLog log).Indexed :=
  fun o => congrFun (indexAll_eq log.log) o

@[simp] theorem IndexedLog.toPgLog_ofLog :
    (ofLog log).toPgLog = log := rfl

/-! ## Cutting -/

section

variable (cut : EVersion)

/-- The entries a log loses when it is rewound to `cut`. -/
def PgLog.divergent : List (PgLogEntry O) :=
  log.log.rtakeWhile fun p => cut.version < p.version.version

/-- The entries it keeps. -/
def PgLog.kept : List (PgLogEntry O) :=
  log.log.rdropWhile fun p => cut.version < p.version.version

/-- The log that is left. -/
def PgLog.rewound : PgLog O :=
  { log with
    head := cut
    canRollbackTo := min cut log.canRollbackTo
    rollbackInfoTrimmedTo := min cut log.rollbackInfoTrimmedTo
    log := log.kept cut }

omit [DecidableEq O] in
theorem PgLog.kept_append_divergent :
    log.kept cut ++ log.divergent cut = log.log := rdropWhile_append_rtakeWhile ..

theorem ite_lt_eq_min (a b : EVersion) : (if a < b then a else b) = min a b := by
  rcases lt_or_ge a b with h | h
  · rw [if_pos h, min_eq_left h.le]
  · rw [if_neg h.not_gt, min_eq_right h]

omit [DecidableEq O] in
theorem PgLog.rewindFromHead_eq :
    log.rewindFromHead cut = if log.tail ≤ cut ∧ ∀ p ∈ log.divergent cut, cut < p.version then
        some (log.rewound cut, log.divergent cut)
      else none := by
  unfold PgLog.rewindFromHead
  by_cases htail : log.tail ≤ cut
  · rw [assert_bind htail]
    change (assert (∀ p ∈ log.divergent cut, cut < p.version) >>= _) = _
    by_cases hdiv : ∀ p ∈ log.divergent cut, cut < p.version
    · have hboth : log.tail ≤ cut ∧ ∀ p ∈ log.divergent cut, cut < p.version := ⟨htail, hdiv⟩
      rw [assert_bind hdiv, ite_lt_eq_min, ite_lt_eq_min, if_pos hboth]
      rfl
    · have hnot : ¬ (log.tail ≤ cut ∧ ∀ p ∈ log.divergent cut, cut < p.version) :=
        fun h => hdiv h.2
      rw [assert_bind_of_not hdiv, if_neg hnot]
  · have hnot : ¬ (log.tail ≤ cut ∧ ∀ p ∈ log.divergent cut, cut < p.version) :=
      fun h => htail h.1
    rw [assert_bind_of_not htail, if_neg hnot]

end

theorem IndexedLog.rewindFromHead_eq_some {log log' : IndexedLog O}
    {divergent : List (PgLogEntry O)} :
    log.rewindFromHead cut = some (log', divergent) ↔
      (log.tail ≤ cut ∧ ∀ p ∈ log.divergent cut, cut < p.version) ∧
        log' = ofLog (log.rewound cut) ∧ divergent = log.divergent cut := by
  unfold rewindFromHead
  rw [PgLog.rewindFromHead_eq]
  split <;> rename_i h
  · constructor
    · intro heq
      cases heq
      exact ⟨h, rfl, rfl⟩
    · rintro ⟨-, rfl, rfl⟩
      rfl
  · constructor
    · intro heq
      cases heq
    · rintro ⟨h', -⟩
      exact absurd h' h

omit [DecidableEq O] in
/-- Along a log in order, the cut is by the number of the version. -/
theorem PgLog.Wf.downClosed {log : PgLog O} (h : log.Wf) (n : ℕ) :
    DownClosed (fun p : PgLogEntry O => !decide (n < p.version.version)) log.log :=
  h.sorted.imp fun {a b} hab => by
    have := hab.2
    simp only [Bool.not_eq_true', decide_eq_false_iff_not]
    omega

omit [DecidableEq O] in
theorem PgLog.Wf.mem_divergent {log : PgLog O} (h : log.Wf) :
    e ∈ log.divergent cut ↔ e ∈ log.log ∧ cut.version < e.version.version := by
  rw [PgLog.divergent, rtakeWhile_eq_filter (h.downClosed _), mem_filter]
  simp

omit [DecidableEq O] in
end

/-! ## Advancing the rollback boundary -/

section

variable (log : IndexedLog O) (upTo : EVersion)

@[simp] theorem IndexedLog.rollForwardTo_log :
    (log.rollForwardTo upTo).1.log = log.log := rfl

@[simp] theorem IndexedLog.rollForwardTo_head :
    (log.rollForwardTo upTo).1.head = log.head := rfl

@[simp] theorem IndexedLog.rollForwardTo_tail :
    (log.rollForwardTo upTo).1.tail = log.tail := rfl

@[simp] theorem IndexedLog.rollForwardTo_objects :
    (log.rollForwardTo upTo).1.objects = log.objects := rfl

theorem IndexedLog.rollForwardTo_canRollbackTo :
    (log.rollForwardTo upTo).1.canRollbackTo = max log.canRollbackTo upTo := by
  change (if log.canRollbackTo < upTo then upTo else log.canRollbackTo) = _
  rcases lt_or_ge log.canRollbackTo upTo with h | h
  · rw [if_pos h, max_eq_right h.le]
  · rw [if_neg h.not_gt, max_eq_left h]

end

/-- Rolling forward makes no other calls. -/
theorem IndexedLog.mem_rollForwardTo {log : IndexedLog O} {upTo : EVersion} {call : HandlerCall O}
    (h : call ∈ (log.rollForwardTo upTo).2) : ∃ e, call = .rollforward e := by
  obtain ⟨e, -, rfl⟩ := mem_map.1 h
  exact ⟨e, rfl⟩

/-! ## Appending -/

variable {olog : PgLog O} {origTail : EVersion}

section Append

variable [LinearOrder O]

/-- What an event makes of the item of its object. -/
def eventItem (e : PgLogEntry O) (item : Option MissingItem) : Option (Option MissingItem) :=
  if e.isUpdate then (nextItem e item).map some
  else if e.isDelete then some (item.filter fun item => e.version < item.need)
  else some item

theorem PgMissing.lookup_addNextEvent {missing missing' : PgMissing O}
    (h : missing.addNextEvent e = some missing') :
    eventItem e (missing.items.lookup e.soid) = some (missing'.items.lookup e.soid) := by
  unfold addNextEvent at h
  unfold eventItem
  split at h
  · rename_i hu
    obtain ⟨item, hitem, h⟩ := of_bind h
    cases h
    rw [if_pos hu, hitem, map_some, Finmap.lookup_insert]
  rename_i hu
  rw [if_neg hu]
  split at h
  · rename_i hd
    cases h
    rw [if_pos hd, lookup_rmUpTo, if_pos rfl]
  · rename_i hd
    cases h
    rw [if_neg hd]

theorem PgMissing.addNextEvent_isSome (missing : PgMissing O) (e : PgLogEntry O) :
    (missing.addNextEvent e).isSome = (eventItem e (missing.items.lookup e.soid)).isSome := by
  unfold addNextEvent eventItem
  split
  · cases nextItem e (missing.items.lookup e.soid) <;> rfl
  · split <;> rfl

/-- The entry takes part in `append_log_entries_update_missing`. -/
def Counts (lastBackfill : O) (p : PgLogEntry O) : Prop := p.soid ≤ lastBackfill ∧ ¬ p.isError

instance (lastBackfill : O) (p : PgLogEntry O) : Decidable (Counts lastBackfill p) :=
  inferInstanceAs (Decidable (_ ∧ _))

theorem IndexedLog.add_eq_some {log log' : IndexedLog O} (h : log.add e true = some log') :
    log.head < e.version ∧ (log.head.version = 0 ∨ log.head.version < e.version.version) ∧
      log'.log = log.log ++ [e] ∧ log'.tail = log.tail ∧ log'.head = e.version ∧
      log'.canRollbackTo = log.canRollbackTo ∧
      log'.rollbackInfoTrimmedTo = log.rollbackInfoTrimmedTo ∧ (log.Indexed → log'.Indexed) := by
  unfold add at h
  rw [assert_bind_eq_some, assert_bind_eq_some, assert_bind_eq_some] at h
  obtain ⟨-, hlt, hnum, h⟩ := h
  cases h
  refine ⟨hlt, hnum, rfl, rfl, rfl, rfl, rfl, fun hindexed o => ?_⟩
  rw [if_pos rfl]
  rw [newest_concat, PgLogEntry.objectIsIndexed]
  by_cases ho : e.soid = o
  · subst ho
    cases he : e.isError <;> simp [hindexed _]
  · cases he : e.isError <;> simp [ho, Function.update_of_ne (Ne.symm ho), hindexed o]

theorem IndexedLog.exists_add {log : IndexedLog O} (hlt : log.head < e.version)
    (hnum : log.head.version < e.version.version) : ∃ log', log.add e true = some log' := by
  unfold add
  rw [assert_bind (.inl rfl), assert_bind hlt, assert_bind (.inr hnum)]
  exact ⟨_, rfl⟩

/-- What appending does to the log, whatever it does to the missing set. -/
structure Appended (log : IndexedLog O) (entries : List (PgLogEntry O)) (log' : IndexedLog O) :
    Prop where
  log_eq : log'.log = log.log ++ entries
  tail_eq : log'.tail = log.tail
  canRollbackTo_eq : log'.canRollbackTo = log.canRollbackTo
  rollbackInfoTrimmedTo_eq : log'.rollbackInfoTrimmedTo = log.rollbackInfoTrimmedTo
  indexed : log.Indexed → log'.Indexed

theorem Appended.refl (log : IndexedLog O) : Appended log [] log :=
  ⟨(append_nil _).symm, rfl, rfl, rfl, id⟩

theorem Appended.concat {log log' log'' : IndexedLog O} {entries : List (PgLogEntry O)}
    (h : Appended log entries log') (hadd : log'.add e true = some log'') :
    Appended log (entries ++ [e]) log'' := by
  obtain ⟨-, -, hlog, htail, -, hcrt, hri, hindexed⟩ := add_eq_some hadd
  exact ⟨by rw [hlog, h.log_eq, append_assoc], htail.trans h.tail_eq,
    hcrt.trans h.canRollbackTo_eq, hri.trans h.rollbackInfoTrimmedTo_eq,
    fun hi => hindexed (h.indexed hi)⟩

variable {p : PgLogEntry O}

/-- One round, taken apart. -/
theorem appendLogEntry_eq_some {lastBackfill : O} {mr : Bool}
    {state state' : IndexedLog O × PgMissing O × List (HandlerCall O)}
    (h : appendLogEntry lastBackfill mr state p = some state') :
    state.1.add p true = some state'.1 ∧
      (Counts lastBackfill p → state.2.1.addNextEvent p = some state'.2.1 ∧
        state'.2.2 = state.2.2 ++ appendCalls mr p) ∧
      (¬ Counts lastBackfill p → state'.2.1 = state.2.1 ∧ state'.2.2 = state.2.2) := by
  obtain ⟨log', hadd, h⟩ := of_bind h
  by_cases hc : Counts lastBackfill p
  · rw [if_pos (by exact hc)] at h
    obtain ⟨missing', hmissing, h⟩ := of_bind h
    cases h
    exact ⟨hadd, fun _ => ⟨hmissing, rfl⟩, fun hn => absurd hc hn⟩
  · rw [if_neg (by exact hc)] at h
    cases h
    exact ⟨hadd, fun h => absurd h hc, fun _ => ⟨rfl, rfl⟩⟩

omit [LinearOrder O] in
theorem target_appendCalls {mr : Bool} : ∀ call ∈ appendCalls mr p, call.target = p.soid := by
  intro call hcall
  unfold appendCalls at hcall
  split at hcall
  · rw [mem_singleton.1 hcall]; rfl
  · split at hcall
    · rw [mem_singleton.1 hcall]; rfl
    · exact absurd hcall not_mem_nil

omit [LinearOrder O] in
theorem rollback_notMem_appendCalls {mr : Bool} : .rollback e ∉ appendCalls mr p := by
  unfold appendCalls
  split
  · simp
  · split <;> simp

section Run

variable {lastBackfill : O} {mr : Bool} {entries : List (PgLogEntry O)} {log log' : IndexedLog O}
  {missing missing' : PgMissing O} {calls : List (HandlerCall O)}

section

variable
  (h : appendLogEntriesUpdateMissing lastBackfill entries mr log missing =
  some (log', missing', calls))

include h

theorem appendLogEntriesUpdateMissing_log : Appended log entries log' := by
  unfold appendLogEntriesUpdateMissing at h
  rw [assert_bind_eq_some] at h
  refine Loop.foldlM_some_invariant (fun pre state => Appended log pre state.1) h.2 (.refl log) ?_
  intro pre p post acc acc' _ hinv hstep
  exact hinv.concat (appendLogEntry_eq_some hstep).1

/-- Only the entries that count change the missing set and make calls. -/
theorem append_rule (Inv : PgMissing O → List (HandlerCall O) → Prop) (h₀ : Inv missing [])
    (hstep : ∀ p ∈ entries, Counts lastBackfill p → ∀ m m' cs, m.addNextEvent p = some m' →
      Inv m cs → Inv m' (cs ++ appendCalls mr p)) : Inv missing' calls := by
  unfold appendLogEntriesUpdateMissing at h
  rw [assert_bind_eq_some] at h
  refine Loop.foldlM_some_invariant (fun _ state => Inv state.2.1 state.2.2) h.2 h₀ ?_
  intro pre p post acc acc' hentries hinv hround
  obtain ⟨-, hcount, hnot⟩ := appendLogEntry_eq_some hround
  by_cases hc : Counts lastBackfill p
  · rw [(hcount hc).2]
    exact hstep p (by simp [hentries]) hc _ _ _ (hcount hc).1 hinv
  · rwa [(hnot hc).1, (hnot hc).2]

/-- An object none of whose new entries counts is left alone. -/
theorem appendLogEntriesUpdateMissing_of_not_counts
    (ho : ∀ p ∈ entries, p.soid = o → ¬ Counts lastBackfill p) :
    missing'.items.lookup o = missing.items.lookup o ∧ callsFor o calls = [] := by
  refine append_rule h (fun m cs => m.items.lookup o = missing.items.lookup o ∧ callsFor o cs = [])
    ⟨rfl, rfl⟩ ?_
  rintro p hp hc m m' cs hm ⟨hitem, hcalls⟩
  have hne : o ≠ p.soid := fun h => ho p hp h.symm hc
  rw [lookup_addNextEvent_of_ne hm hne, callsFor_append, hcalls,
    callsFor_of_target_ne hne.symm target_appendCalls]
  exact ⟨hitem, rfl⟩

theorem rollback_notMem_appendLogEntriesUpdateMissing : .rollback e ∉ calls := by
  refine append_rule h (fun _ cs => .rollback e ∉ cs) not_mem_nil fun p _ _ m m' cs _ hinv => ?_
  rw [mem_append, not_or]
  exact ⟨hinv, rollback_notMem_appendCalls⟩

end

end Run

/-! ## `rewind_divergent_log` and `merge_log` taken apart -/

/-- `info` after a rewind. -/
def PgInfo.rewoundTo (info : PgInfo O) (newhead : EVersion) : PgInfo O :=
  { (if newhead < info.lastComplete then { info with lastComplete := newhead } else info) with
    lastUpdate := newhead }

omit [LinearOrder O] in
@[simp] theorem PgInfo.lastBackfill_rewoundTo (info : PgInfo O) (newhead : EVersion) :
    (info.rewoundTo newhead).lastBackfill = info.lastBackfill := by
  unfold PgInfo.rewoundTo
  split <;> rfl

variable (pglog : PGLog O)

/-- The log after a rewind, with what is marked dirty. -/
def PGLog.rewoundTo (newhead : EVersion) : PGLog O :=
  let pglog' := { pglog with log := ofLog (pglog.log.rewound newhead) }
  match pglog.log.divergent newhead with
  | [] => pglog'
  | front :: _ => pglog'.markDirtyFrom front.version

section

omit [LinearOrder O]

theorem PGLog.log_markDirtyFrom (v : EVersion) : (pglog.markDirtyFrom v).log = pglog.log := by
  unfold markDirtyFrom
  split <;> rfl

theorem PGLog.missing_markDirtyFrom (v : EVersion) :
    (pglog.markDirtyFrom v).missing = pglog.missing := by
  unfold markDirtyFrom
  split <;> rfl

theorem PGLog.missing_markDirtyTo (v : EVersion) :
    (pglog.markDirtyTo v).missing = pglog.missing := by
  unfold markDirtyTo
  split <;> rfl

end

theorem PGLog.log_rewoundTo (newhead : EVersion) :
    (pglog.rewoundTo newhead).log = ofLog (pglog.log.rewound newhead) := by
  unfold rewoundTo
  cases pglog.log.divergent newhead with
  | nil => rfl
  | cons front _ => exact log_markDirtyFrom ..

theorem PGLog.missing_rewoundTo (newhead : EVersion) :
    (pglog.rewoundTo newhead).missing = pglog.missing := by
  unfold rewoundTo
  cases pglog.log.divergent newhead with
  | nil => rfl
  | cons front _ => exact missing_markDirtyFrom ..

/-- The log can be cut there. -/
def PgLog.CutOk (log : PgLog O) (cut : EVersion) : Prop :=
  log.tail ≤ cut ∧ ∀ p ∈ log.divergent cut, cut < p.version

variable {r : Merged O}

namespace PGLog

theorem rewindDivergentLog_eq_some {pglog : PGLog O} {newhead : EVersion} {info : PgInfo O} :
    pglog.rewindDivergentLog newhead info = some r ↔ pglog.log.CutOk newhead ∧ ∃ missing calls,
        mergeDivergentEntries (ofLog (pglog.log.rewound newhead))
            (pglog.log.divergent newhead) (info.rewoundTo newhead)
            (min newhead pglog.log.canRollbackTo) pglog.missing = some (missing, calls) ∧
          r = { pglog := { pglog.rewoundTo newhead with missing := missing }
                info := info.rewoundTo newhead, calls := calls, dirty := true } := by
  have hmissing := pglog.missing_rewoundTo newhead
  constructor
  · intro h
    obtain ⟨⟨log, divergent⟩, hrewind, h⟩ := of_bind h
    obtain ⟨hcut, rfl, rfl⟩ := rewindFromHead_eq_some.1 hrewind
    obtain ⟨⟨missing, calls⟩, hmerge, h⟩ := of_bind h
    cases h
    refine ⟨hcut, missing, calls, ?_, rfl⟩
    exact hmissing ▸ hmerge
  · rintro ⟨hcut, missing, calls, hmerge, rfl⟩
    refine bind_eq_some_iff.2 ⟨_, rewindFromHead_eq_some.2 ⟨hcut, rfl, rfl⟩, ?_⟩
    refine bind_eq_some_iff.2 ⟨(missing, calls), ?_, rfl⟩
    exact hmissing.symm ▸ hmerge

theorem mergeHead_eq_some {m : Merged O} : mergeHead m origTail olog = some r ↔
      m.pglog.log.CutOk (cutPoint m.pglog.log.head origTail olog).1 ∧
      ∃ log missing appended missing' merged, appendLogEntriesUpdateMissing m.info.lastBackfill
            (cutPoint m.pglog.log.head origTail olog).2 false
            ((ofLog (m.pglog.log.rewound (cutPoint m.pglog.log.head origTail olog).1)).rollForwardTo
                (cutPoint m.pglog.log.head origTail olog).1).1 m.pglog.missing =
          some (log, missing, appended) ∧ mergeDivergentEntries log
            (m.pglog.log.divergent (cutPoint m.pglog.log.head origTail olog).1) m.info
            log.canRollbackTo missing = some (missing', merged) ∧ r =
          { pglog :=
              { m.pglog.markDirtyFrom (cutPoint m.pglog.log.head origTail olog).1 with
                log := ({ log with head := olog.head } : IndexedLog O).skipCanRollbackToToHead
                missing := missing' }
            info := { m.info with lastUpdate := olog.head }
            calls := m.calls ++ ((ofLog (m.pglog.log.rewound
                (cutPoint m.pglog.log.head origTail olog).1)).rollForwardTo
                  (cutPoint m.pglog.log.head origTail olog).1).2 ++ appended ++ merged
            dirty := true } := by
  unfold mergeHead
  dsimp only
  rw [log_markDirtyFrom, missing_markDirtyFrom]
  constructor
  · intro h
    obtain ⟨⟨log, divergent⟩, hrewind, h⟩ := of_bind h
    obtain ⟨hcut, rfl, rfl⟩ := rewindFromHead_eq_some.1 hrewind
    obtain ⟨⟨log, missing, appended⟩, happend, h⟩ := of_bind h
    obtain ⟨⟨missing', merged⟩, hmerge, h⟩ := of_bind h
    cases h
    exact ⟨hcut, log, missing, appended, missing', merged, happend, hmerge, rfl⟩
  · rintro ⟨hcut, log, missing, appended, missing', merged, happend, hmerge, rfl⟩
    refine bind_eq_some_iff.2 ⟨_, rewindFromHead_eq_some.2 ⟨hcut, rfl, rfl⟩, ?_⟩
    refine bind_eq_some_iff.2 ⟨(log, missing, appended), happend, ?_⟩
    exact bind_eq_some_iff.2 ⟨(missing', merged), hmerge, rfl⟩

/-- The entries of `olog` that extend the tail. -/
def taken (log olog : PgLog O) : List (PgLogEntry O) :=
  if olog.tail < log.tail then olog.log.takeWhile fun e => e.version ≤ log.tail else []

/-- The entries of `olog` that do not. -/
def untaken (log olog : PgLog O) : List (PgLogEntry O) :=
  if olog.tail < log.tail then olog.log.dropWhile fun e => e.version ≤ log.tail else olog.log

omit [LinearOrder O] in
theorem taken_append_untaken (log olog : PgLog O) :
    taken log olog ++ untaken log olog = olog.log := by
  unfold taken untaken
  split
  · exact takeWhile_append_dropWhile
  · rfl

omit [LinearOrder O] in
theorem le_tail_of_mem_taken {log : PgLog O} (h : e ∈ taken log olog) : e.version ≤ log.tail := by
  unfold taken at h
  split at h
  · simpa using mem_takeWhile_imp h
  · exact absurd h not_mem_nil

end PGLog

theorem IndexedLog.toPgLog_index (log : IndexedLog O) (e : PgLogEntry O) :
    (log.index e).toPgLog = log.toPgLog := by
  unfold index
  split
  · split
    · rfl
    · split <;> rfl
  · rfl

theorem IndexedLog.toPgLog_indexList (entries : List (PgLogEntry O)) (log : IndexedLog O) :
    (entries.foldl (fun log e => log.index e) log).toPgLog = log.toPgLog := by
  induction entries generalizing log with
  | nil => rfl
  | cons e entries ih => rw [foldl_cons, ih, toPgLog_index]

/-- What extending the tail does to the log. -/
def PgLog.extended (log olog : PgLog O) : PgLog O :=
  { log with log := taken log olog ++ log.log, tail := min olog.tail log.tail }

variable (m : Merged O)

section

variable (olog : PgLog O)

namespace PGLog

theorem mergeTail_log : (mergeTail m olog).1.pglog.log.toPgLog = m.pglog.log.extended olog := by
  unfold mergeTail PgLog.extended taken
  by_cases h : olog.tail < m.pglog.log.tail
  · rw [if_pos h, if_pos h, min_eq_left h.le]
    have hindex := toPgLog_indexList
      (olog.log.takeWhile fun e => decide (e.version ≤ m.pglog.log.tail)) m.pglog.log
    dsimp only
    rw [hindex]
  · rw [if_neg h, if_neg h, min_eq_right (not_lt.1 h)]
    rfl

theorem mergeTail_keeps : (mergeTail m olog).1.pglog.missing = m.pglog.missing ∧
    (mergeTail m olog).1.info.lastBackfill = m.info.lastBackfill ∧
    (mergeTail m olog).1.calls = m.calls := by
  unfold mergeTail
  dsimp only
  split
  · exact ⟨missing_markDirtyTo .., rfl, rfl⟩
  · exact ⟨rfl, rfl, rfl⟩

theorem mergeTail_olog :
    (mergeTail m olog).2 = { olog with log := untaken m.pglog.log.toPgLog olog } := by
  unfold mergeTail untaken
  dsimp only
  split <;> rfl

end PGLog

end

namespace PGLog

theorem mergeLog_eq_some {pglog : PGLog O} {info : PgInfo O} :
    pglog.mergeLog olog info = some r ↔ (¬ pglog.log.null ∨ olog.tail = 0) ∧
      (olog.tail ≤ pglog.log.head ∧ pglog.log.tail ≤ olog.head) ∧ ((olog.head < pglog.log.head ∧
          (mergeTail ⟨pglog, info, [], false⟩ olog).1.pglog.rewindDivergentLog olog.head
            (mergeTail ⟨pglog, info, [], false⟩ olog).1.info = some r) ∨
        (olog.head = pglog.log.head ∧ r = (mergeTail ⟨pglog, info, [], false⟩ olog).1) ∨
        (pglog.log.head < olog.head ∧
          mergeHead (mergeTail ⟨pglog, info, [], false⟩ olog).1 pglog.log.tail
            (mergeTail ⟨pglog, info, [], false⟩ olog).2 = some r)) := by
  unfold mergeLog
  rw [assert_bind_eq_some, assert_bind_eq_some]
  refine and_congr_right fun _ => and_congr_right fun _ => ?_
  have hhead : (mergeTail ⟨pglog, info, [], false⟩ olog).1.pglog.log.head = pglog.log.head := by
    rw [mergeTail_log]
    rfl
  have hohead : (mergeTail ⟨pglog, info, [], false⟩ olog).2.head = olog.head := by
    rw [mergeTail_olog]
  generalize mergeTail ⟨pglog, info, [], false⟩ olog = mt at hhead hohead ⊢
  obtain ⟨m, olog'⟩ := mt
  dsimp only at hhead hohead ⊢
  rw [hhead, hohead]
  rcases lt_trichotomy olog.head pglog.log.head with hlt | heq | hgt
  · simp only [hlt, hlt.ne, hlt.not_gt, false_and, or_false, true_and]
    have hrewound : ∀ {r}, m.pglog.rewindDivergentLog olog.head m.info = some r →
        r.pglog.log.head = olog.head := by
      intro r h
      obtain ⟨-, missing, calls, -, rfl⟩ := rewindDivergentLog_eq_some.1 h
      exact congrArg (fun log : IndexedLog O => log.head) (m.pglog.log_rewoundTo olog.head)
    constructor
    · intro h
      obtain ⟨m', hm', h⟩ := of_bind h
      rw [hrewound hm', if_neg (lt_irrefl _)] at h
      cases h
      exact hm'
    · intro h
      refine bind_eq_some_iff.2 ⟨r, h, ?_⟩
      rw [hrewound h, if_neg (lt_irrefl _)]
  · simp [heq, hhead, eq_comm]
  · rw [if_neg hgt.not_gt]
    simp only [bind_eq_bind, bind_some, hhead, hgt, hgt.not_gt, hgt.ne', if_true,
      false_and, false_or, true_and]

end PGLog

end Append

/-! ## The cut point -/

namespace PGLog

/-- Entries below the tail do not move the cut point, and are not new. -/
theorem cutPoint_untaken {log : PgLog O} (hle : log.tail ≤ log.head) :
    cutPoint log.head log.tail { olog with log := untaken log olog } =
      cutPoint log.head log.tail olog := by
  have hnew : ∀ x ∈ (taken log olog ++ untaken log olog).rtakeWhile
      (fun e => decide (log.head < e.version)), x ∉ taken log olog := by
    intro x hx hmem
    have hlt : log.head < x.version := by simpa using mem_rtakeWhile_imp hx
    exact absurd ((le_tail_of_mem_taken hmem).trans hle) hlt.not_ge
  unfold cutPoint
  conv_rhs => rw [← taken_append_untaken log olog]
  rw [rtakeWhile_append_of_notMem hnew, rdropWhile_append_of_notMem hnew, List.getLast?_append]
  refine Prod.ext ?_ rfl
  cases (List.rdropWhile (fun e => decide (log.head < e.version))
      (untaken log olog)).getLast? with
  | some e => rfl
  | none =>
    cases htaken : (taken log olog).getLast? with
    | none => rfl
    | some e =>
      have := le_tail_of_mem_taken (mem_of_mem_getLast? htaken)
      exact (max_eq_left (this.trans (le_max_right _ _))).symm

theorem cutPoint_mergeTail [LinearOrder O] {pglog : PGLog O} (info : PgInfo O) (olog : PgLog O)
    (hle : pglog.log.tail ≤ pglog.log.head) :
    cutPoint (mergeTail ⟨pglog, info, [], false⟩ olog).1.pglog.log.head
        pglog.log.tail (mergeTail ⟨pglog, info, [], false⟩ olog).2 =
      cutPoint pglog.log.head pglog.log.tail olog := by
  rw [mergeTail_olog, mergeTail_log]
  exact cutPoint_untaken hle

theorem le_cutPoint (head origTail : EVersion) (olog : PgLog O) :
    max olog.tail origTail ≤ (cutPoint head origTail olog).1 := by
  unfold cutPoint
  dsimp only
  split
  · exact le_rfl
  · exact le_max_left _ _

theorem cutPoint_le {head : EVersion} (htail : olog.tail ≤ head) (horig : origTail ≤ head) :
    (cutPoint head origTail olog).1 ≤ head := by
  unfold cutPoint
  dsimp only
  split
  · exact max_le htail horig
  rename_i e he
  refine max_le (max_le htail horig) ?_
  have hne : olog.log.rdropWhile (fun e => decide (head < e.version)) ≠ [] := by
    intro hnil
    rw [hnil] at he
    cases he
  have := rdropWhile_last_not _ _ hne
  rw [List.getLast?_eq_some_getLast hne] at he
  cases he
  simpa using this

theorem lt_of_mem_new {head : EVersion} (h : e ∈ (cutPoint head origTail olog).2) :
    head < e.version := by
  simpa using mem_rtakeWhile_imp h

end PGLog

/-- No entry that extends the tail is divergent. -/
theorem PgLog.divergent_extended {log : PgLog O} (htail : log.tail ≤ cut)
    (hcut : (log.extended olog).CutOk cut) :
    (log.extended olog).divergent cut = log.divergent cut := by
  refine rtakeWhile_append_of_notMem fun x hx hmem => ?_
  exact absurd ((le_tail_of_mem_taken hmem).trans htail) (hcut.2 x hx).not_ge

theorem PgLog.kept_extended {log : PgLog O} (htail : log.tail ≤ cut)
    (hcut : (log.extended olog).CutOk cut) :
    (log.extended olog).kept cut = taken log olog ++ log.kept cut := by
  refine rdropWhile_append_of_notMem fun x hx hmem => ?_
  exact absurd ((le_tail_of_mem_taken hmem).trans htail) (hcut.2 x hx).not_ge

end Ceph.Osd
