import Ceph.Osd.PGLogPersist

/-!
# What the calls mark

Every call that changes the log marks the versions of the entries it adds or drops, and
every operation on the missing set puts the objects it touches into `changed`
(`Marked`).  So whatever calls are made between two writes, a write leaves the log and
the missing set in the store (`persisted_writeLogAndMissing`).

The log has to stay in order (`inOrder_run`).  The marks cannot reach `eversion_t::max()`,
which stands for "nothing" in `dirty_from` and `writeout_from`; and a log is cut back by the
numbers of its versions alone, so that an entry of a later epoch can stay behind the new head
(`not_persisted`).
-/

namespace Ceph.Osd

open List Option PGLog EVersion

variable {O : Type}

/-! ## Marks -/

theorem PGLog.markDirtyTo_eq (pglog : PGLog O) (v : EVersion) :
    pglog.markDirtyTo v = { pglog with dirtyTo := max pglog.dirtyTo v } := by
  unfold markDirtyTo
  split <;> rename_i h
  · rw [max_eq_right h.le]
  · rw [max_eq_left (not_lt.1 h)]

theorem PGLog.markDirtyFrom_eq (pglog : PGLog O) (v : EVersion) :
    pglog.markDirtyFrom v = { pglog with dirtyFrom := min pglog.dirtyFrom v } := by
  unfold markDirtyFrom
  split <;> rename_i h
  · rw [min_eq_right h.le]
  · rw [min_eq_left (not_lt.1 h)]

theorem PGLog.markWriteoutFrom_eq (pglog : PGLog O) (v : EVersion) :
    pglog.markWriteoutFrom v = { pglog with writeoutFrom := min pglog.writeoutFrom v } := by
  unfold markWriteoutFrom
  split <;> rename_i h
  · rw [min_eq_right h.le]
  · rw [min_eq_left (not_lt.1 h)]

theorem EVersion.Bounded.max {a b : EVersion} (ha : a.Bounded) (hb : b.Bounded) :
    (Max.max a b).Bounded := by
  rcases max_choice a b with h | h
  · rwa [h]
  · rwa [h]

theorem EVersion.Bounded.min {a b : EVersion} (ha : a.Bounded) (hb : b.Bounded) :
    (Min.min a b).Bounded := by
  rcases min_choice a b with h | h
  · rwa [h]
  · rwa [h]

/-! ## The missing set -/

variable {e : PgLogEntry O} {entries : List (PgLogEntry O)} {log : IndexedLog O}
  {calls : List (HandlerCall O)} {info : PgInfo O}

section Tracks

variable [LinearOrder O] {missing missing' missing'' : PgMissing O}

/-- Every object whose item is changed is in `changed` afterwards, and none leaves it. -/
def PgMissing.Tracks (missing missing' : PgMissing O) : Prop :=
  ∀ o ∉ missing'.changed, o ∉ missing.changed ∧ missing'.items.lookup o = missing.items.lookup o

namespace PgMissing.Tracks

theorem refl (missing : PgMissing O) : missing.Tracks missing := fun _ h => ⟨h, rfl⟩

theorem trans (h : missing.Tracks missing') (h' : missing'.Tracks missing'') :
    missing.Tracks missing'' := by
  intro o ho
  obtain ⟨ho', heq'⟩ := h' o ho
  obtain ⟨ho, heq⟩ := h o ho'
  exact ⟨ho, heq'.trans heq⟩

/-- An operation on the item of one object. -/
theorem of_insert {oid : O} (hchanged : missing'.changed = insert oid missing.changed)
    (hlookup : ∀ o ≠ oid, missing'.items.lookup o = missing.items.lookup o) :
    missing.Tracks missing' := by
  intro o ho
  rw [hchanged, Finset.mem_insert, not_or] at ho
  exact ⟨ho.2, hlookup o ho.1⟩

section

variable (missing : PgMissing O)

theorem rm (oid : O) : missing.Tracks (missing.rm oid) := by
  have hlookup : ∀ o ≠ oid, (missing.rm oid).items.lookup o = missing.items.lookup o := by
    intro o ho
    rw [PgMissing.lookup_rm, if_neg ho]
  unfold PgMissing.rm at hlookup ⊢
  cases hitem : missing.items.lookup oid with
  | none => exact refl missing
  | some item =>
    rw [hitem] at hlookup
    exact of_insert rfl hlookup

theorem add (oid : O) (need held : EVersion) : missing.Tracks (missing.add oid need held) :=
  of_insert rfl fun o ho => by rw [PgMissing.lookup_add, if_neg ho]

theorem reviseNeed (oid : O) (need : EVersion) : missing.Tracks (missing.reviseNeed oid need) := by
  refine of_insert ?_ fun o ho => by rw [PgMissing.lookup_reviseNeed, if_neg ho]
  unfold PgMissing.reviseNeed
  cases missing.items.lookup oid <;> rfl

theorem reviseHave (oid : O) (held : EVersion) : missing.Tracks (missing.reviseHave oid held) := by
  have hlookup : ∀ o ≠ oid, (missing.reviseHave oid held).items.lookup o =
      missing.items.lookup o := fun o ho => by
    rw [PgMissing.lookup_reviseHave, if_neg ho]
  unfold PgMissing.reviseHave at hlookup ⊢
  cases hitem : missing.items.lookup oid with
  | none => exact refl missing
  | some item =>
    rw [hitem] at hlookup
    exact of_insert rfl hlookup

theorem clear : missing.Tracks missing.clear := by
  intro o ho
  rw [PgMissing.clear, Finset.mem_union, not_or, Finmap.mem_keys, ← Finmap.lookup_eq_none] at ho
  exact ⟨ho.1, ho.2.symm⟩

theorem rmUpTo (oid : O) (v : EVersion) : missing.Tracks (missing.rmUpTo oid v) := by
  unfold PgMissing.rmUpTo
  split
  · exact refl missing
  · split
    · exact rm missing oid
    · exact refl missing

end

theorem addNextEvent (h : missing.addNextEvent e = some missing') : missing.Tracks missing' := by
  unfold PgMissing.addNextEvent at h
  split at h
  · obtain ⟨item, -, h⟩ := of_bind h
    cases h
    exact of_insert rfl fun o ho => Finmap.lookup_insert_of_ne _ ho
  · split at h
    · cases h
      exact (rmUpTo missing e.soid e.version).trans (of_insert rfl fun _ _ => rfl)
    · cases h
      exact of_insert rfl fun _ _ => rfl

theorem append {lastBackfill : O} {mr : Bool}
    {log' : IndexedLog O}
    (h : appendLogEntriesUpdateMissing lastBackfill entries mr log missing =
      some (log', missing', calls)) : missing.Tracks missing' :=
  append_rule h (fun m _ => missing.Tracks m) (refl missing) fun _ _ _ _ _ _ hm hinv =>
    hinv.trans (addNextEvent hm)

theorem decision (d : Decision O) (missing : PgMissing O) : missing.Tracks (d.apply missing) := by
  unfold Decision.apply
  cases d.kind with
  | notBackfilled => exact refl missing
  | moreRecent => exact reviseHave missing d.hoid 0
  | created => exact rm missing d.hoid
  | missing =>
    dsimp only
    split
    · exact rm missing d.hoid
    · exact reviseNeed missing d.hoid d.prior
  | canRollback => exact refl missing
  | cannotRollback => exact add missing d.hoid d.prior 0

theorem merge {boundary : EVersion}
    (h : mergeDivergentEntries log entries info boundary missing = some (missing', calls)) :
    missing.Tracks missing' := by
  rw [mergeDivergentEntries_eq] at h
  obtain ⟨ds, -, h⟩ := of_map h
  cases h
  refine Loop.foldl_invariant (fun _ state => missing.Tracks state) (refl missing) ?_
  intro _ d _ state _ hinv
  exact hinv.trans (decision d state)

theorem split (inChild : O → Bool) (missing omissing : PgMissing O) :
    missing.Tracks (splitMissing inChild missing omissing).1 ∧
      omissing.Tracks (splitMissing inChild missing omissing).2 := by
  rw [splitMissing_eq]
  refine Loop.foldl_invariant
    (fun _ (state : PgMissing O × PgMissing O) => missing.Tracks state.1 ∧ omissing.Tracks state.2)
    ⟨refl missing, refl omissing⟩ ?_
  rintro _ o _ state - ⟨hinv, hinv'⟩
  rw [splitRound_fst]
  refine ⟨hinv.trans (rm state.1 o), ?_⟩
  unfold splitRound
  split
  · exact hinv'
  · rename_i item _
    exact hinv'.trans (add state.2 o item.need item.held)

end PgMissing.Tracks

end Tracks

/-! ## The log -/

section Marked

variable [LinearOrder O] {pglog pglog' pglog'' : PGLog O}

/-- What changes is marked: an entry that is not marked was in the log before and is in
it afterwards. -/
structure Marked (pglog pglog' : PGLog O) : Prop where
  to_le : pglog.dirtyTo ≤ pglog'.dirtyTo
  from_le : pglog'.dirtyFrom ≤ pglog.dirtyFrom
  writeout_le : pglog'.writeoutFrom ≤ pglog.writeoutFrom
  trimmed_subset : pglog.trimmed ⊆ pglog'.trimmed
  to_bounded : pglog.dirtyTo.Bounded → pglog'.dirtyTo.Bounded
  from_bounded : pglog.dirtyFrom.Bounded → pglog'.dirtyFrom.Bounded
  trimmed_bounded : (∀ v ∈ pglog.trimmed, v.Bounded) → ∀ v ∈ pglog'.trimmed, v.Bounded
  was_there : ∀ e ∈ pglog'.log.log, pglog'.dirtyTo < e.version → e.version < pglog'.dirtyFrom →
    e.version < pglog'.writeoutFrom →
    e ∈ pglog.log.log ∧ (e.version ∈ pglog'.trimmed → e.version ∈ pglog.trimmed)
  stays : ∀ e ∈ pglog.log.log, pglog'.dirtyTo ≤ e.version → e.version < pglog'.dirtyFrom →
    e.version ∉ pglog'.trimmed → e ∈ pglog'.log.log
  tracks : pglog.missing.Tracks pglog'.missing

namespace Marked

theorem trans (h : Marked pglog pglog') (h' : Marked pglog' pglog'') : Marked pglog pglog'' where
  to_le := h.to_le.trans h'.to_le
  from_le := h'.from_le.trans h.from_le
  writeout_le := h'.writeout_le.trans h.writeout_le
  trimmed_subset := h.trimmed_subset.trans h'.trimmed_subset
  to_bounded hb := h'.to_bounded (h.to_bounded hb)
  from_bounded hb := h'.from_bounded (h.from_bounded hb)
  trimmed_bounded hb := h'.trimmed_bounded (h.trimmed_bounded hb)
  was_there e he hto hfrom hwriteout := by
    obtain ⟨he', htrim'⟩ := h'.was_there e he hto hfrom hwriteout
    obtain ⟨he, htrim⟩ := h.was_there e he' (h'.to_le.trans_lt hto) (hfrom.trans_le h'.from_le)
      (hwriteout.trans_le h'.writeout_le)
    exact ⟨he, fun hmem => htrim (htrim' hmem)⟩
  stays e he hto hfrom htrim := by
    have he' := h.stays e he (h'.to_le.trans hto) (hfrom.trans_le h'.from_le)
      fun hmem => htrim (h'.trimmed_subset hmem)
    exact h'.stays e he' hto hfrom htrim
  tracks := h.tracks.trans h'.tracks

/-- A call that leaves the entries as they are. -/
theorem of_same {missing : PgMissing O} (hlog : log.log = pglog.log.log)
    (h : pglog.missing.Tracks missing) :
    Marked pglog { pglog with log := log, missing := missing } where
  to_le := le_rfl
  from_le := le_rfl
  writeout_le := le_rfl
  trimmed_subset := subset_rfl
  to_bounded := id
  from_bounded := id
  trimmed_bounded := id
  was_there _ he _ _ _ := ⟨hlog ▸ he, id⟩
  stays _ he _ _ _ := hlog ▸ he
  tracks := h

variable {v : EVersion}

/-- A call that adds entries, written out from the first of them on. -/
theorem of_add {missing : PgMissing O} (hlog : log.log = pglog.log.log ++ entries)
    (hentries : ∀ e ∈ entries, v ≤ e.version) (h : pglog.missing.Tracks missing) :
    Marked pglog { pglog with
      log := log, missing := missing, writeoutFrom := min pglog.writeoutFrom v } where
  to_le := le_rfl
  from_le := le_rfl
  writeout_le := min_le_left _ _
  trimmed_subset := subset_rfl
  to_bounded := id
  from_bounded := id
  trimmed_bounded := id
  was_there e he _ _ hlt := by
    rw [hlog, mem_append] at he
    rcases he with he | he
    · exact ⟨he, id⟩
    · exact absurd (hlt.trans_le (min_le_right _ _)) (hentries e he).not_gt
  stays e he _ _ _ := by
    rw [hlog]
    exact mem_append_left _ he
  tracks := h

/-- A call that marks everything. -/
theorem of_all {missing : PgMissing O} (hlog : pglog.log.InOrder) (hlog' : log.InOrder)
    (h : pglog.missing.Tracks missing) :
    Marked pglog { pglog with
      log := log, missing := missing, dirtyTo := max pglog.dirtyTo max } where
  to_le := le_max_left _ _
  from_le := le_rfl
  writeout_le := le_rfl
  trimmed_subset := subset_rfl
  to_bounded hb := hb.max bounded_max
  from_bounded := id
  trimmed_bounded := id
  was_there e he hlt _ _ :=
    absurd ((le_max_right _ _).trans_lt hlt) (hlog'.proper e he).lt_max.not_gt
  stays e he hle _ _ := absurd ((le_max_right _ _).trans hle) (hlog.proper e he).lt_max.not_ge
  tracks := h

/-- A call that puts entries in front. -/
theorem of_extend {taken : List (PgLogEntry O)} (hlog : log.log = taken ++ pglog.log.log)
    (hv : v.Bounded) (htaken : ∀ e ∈ taken, e.version ≤ v) :
    Marked pglog { pglog with log := log, dirtyTo := max pglog.dirtyTo v } where
  to_le := le_max_left _ _
  from_le := le_rfl
  writeout_le := le_rfl
  trimmed_subset := subset_rfl
  to_bounded hb := hb.max hv
  from_bounded := id
  trimmed_bounded := id
  was_there e he hlt _ _ := by
    rw [hlog, mem_append] at he
    rcases he with he | he
    · exact absurd ((le_max_right _ _).trans_lt hlt) (htaken e he).not_gt
    · exact ⟨he, id⟩
  stays e he _ _ _ := by
    rw [hlog]
    exact mem_append_right _ he
  tracks := .refl _

/-- A call that drops entries off the end, and may put others in their place. -/
theorem of_rewind {cut : EVersion} {news : List (PgLogEntry O)}
    (hlog : log.log = pglog.log.kept cut ++ news) (hv : v.Bounded)
    (hdivergent : ∀ e ∈ pglog.log.divergent cut, v ≤ e.version)
    (hnews : ∀ e ∈ news, v ≤ e.version) :
    Marked pglog { pglog with log := log, dirtyFrom := min pglog.dirtyFrom v } where
  to_le := le_rfl
  from_le := min_le_left _ _
  writeout_le := le_rfl
  trimmed_subset := subset_rfl
  to_bounded := id
  from_bounded hb := hb.min hv
  trimmed_bounded := id
  was_there e he _ hlt _ := by
    rw [hlog, mem_append] at he
    rcases he with he | he
    · rw [← pglog.log.kept_append_divergent cut]
      exact ⟨mem_append_left _ he, id⟩
    · exact absurd (hlt.trans_le (min_le_right _ _)) (hnews e he).not_gt
  stays e he _ hlt _ := by
    rw [← pglog.log.kept_append_divergent cut, mem_append] at he
    rcases he with he | he
    · rw [hlog]
      exact mem_append_left _ he
    · exact absurd (hlt.trans_le (min_le_right _ _)) (hdivergent e he).not_gt
  tracks := .refl _

end Marked

/-! ## The calls -/

theorem IndexedLog.log_add {log' : IndexedLog O} {applied : Bool}
    (h : log.add e applied = some log') : log'.log = log.log ++ [e] := by
  unfold IndexedLog.add at h
  rw [assert_bind_eq_some, assert_bind_eq_some, assert_bind_eq_some] at h
  obtain ⟨-, -, -, h⟩ := h
  cases h
  split <;> rfl

theorem marked_add {applied : Bool} (h : pglog.add e applied = some pglog') :
    Marked pglog pglog' := by
  unfold add at h
  rw [markWriteoutFrom_eq] at h
  obtain ⟨log, hadd, h⟩ := of_bind h
  cases h
  refine .of_add (IndexedLog.log_add hadd) ?_ (.refl _)
  rintro e he
  rw [mem_singleton.1 he]

theorem marked_appendNewLogEntries {lastBackfill : O} (hlog' : pglog'.log.InOrder)
    (h : pglog.appendNewLogEntries lastBackfill entries = some (pglog', calls)) :
    Marked pglog pglog' := by
  obtain ⟨⟨log, missing, calls'⟩, happend, h⟩ := of_bind h
  have hlog := (appendLogEntriesUpdateMissing_log happend).log_eq
  have htracks := PgMissing.Tracks.append happend
  cases entries with
  | nil =>
    cases h
    exact .of_same (hlog.trans (append_nil _)) htracks
  | cons first rest =>
    dsimp only at h
    rw [markWriteoutFrom_eq] at h
    cases h
    refine .of_add hlog ?_ htracks
    have hsorted := hlog'.sorted
    rw [hlog, pairwise_append] at hsorted
    intro e he
    rcases mem_cons.1 he with rfl | he
    · exact le_rfl
    · exact ((pairwise_cons.1 hsorted.2.1).1 e he).le

theorem marked_trim {trimTo : EVersion} {info' : PgInfo O} (hlog : pglog.log.InOrder)
    (h : pglog.trim trimTo info = some (pglog', info')) : Marked pglog pglog' := by
  unfold trim at h
  split at h
  · rw [assert_bind_eq_some] at h
    obtain ⟨⟨log, popped⟩, htrim, h⟩ := of_bind h.2
    cases h
    unfold IndexedLog.trim at htrim
    rw [assert_bind_eq_some] at htrim
    cases htrim.2
    have hsplit := takeWhile_append_dropWhile
      (p := fun e : PgLogEntry O => decide (e.version ≤ trimTo)) (l := pglog.log.log)
    have hsorted := hlog.sorted
    rw [← hsplit, pairwise_append] at hsorted
    exact {
      to_le := le_rfl
      from_le := le_rfl
      writeout_le := le_rfl
      trimmed_subset := Finset.subset_union_left
      to_bounded := id
      from_bounded := id
      trimmed_bounded := fun hb v hv => by
        rw [Finset.mem_union, List.mem_toFinset, List.mem_map] at hv
        rcases hv with hv | ⟨e, he, rfl⟩
        · exact hb v hv
        · exact (hlog.proper e (takeWhile_subset _ he)).bounded
      was_there := fun e he _ _ _ => by
        refine ⟨dropWhile_subset _ he, fun hmem => ?_⟩
        rw [Finset.mem_union, List.mem_toFinset, List.mem_map] at hmem
        rcases hmem with hmem | ⟨e', he', heq⟩
        · exact hmem
        · exact absurd heq (hsorted.2.2 e' he' e he).ne
      stays := fun e he _ _ hnot => by
        rw [Finset.mem_union, List.mem_toFinset, not_or] at hnot
        rw [← hsplit, mem_append] at he
        exact he.resolve_left fun hmem => hnot.2 (mem_map_of_mem hmem)
      tracks := .refl _ }
  · cases h
    exact .of_same rfl (.refl _)

theorem marked_rewoundTo (newhead : EVersion) (hlog : pglog.log.InOrder) :
    Marked pglog (pglog.rewoundTo newhead) := by
  have hkept := pglog.log.kept_append_divergent newhead
  have hrewound : (IndexedLog.ofLog (pglog.log.rewound newhead)).log =
      pglog.log.kept newhead ++ [] := (append_nil _).symm
  unfold rewoundTo
  cases hdiv : pglog.log.divergent newhead with
  | nil =>
    rw [hdiv, append_nil] at hkept
    exact .of_same hkept (.refl _)
  | cons front rest =>
    dsimp only
    rw [markDirtyFrom_eq]
    have hsorted := hlog.sorted
    rw [← hkept, hdiv, pairwise_append] at hsorted
    have hfront : front ∈ pglog.log.log := by
      rw [← hkept, hdiv]
      exact mem_append_right _ mem_cons_self
    refine .of_rewind hrewound (hlog.proper front hfront).bounded ?_ nofun
    intro e he
    rw [hdiv] at he
    rcases mem_cons.1 he with rfl | he
    · exact le_rfl
    · exact ((pairwise_cons.1 hsorted.2.1).1 e he).le

variable {r : Merged O}

theorem marked_rewindDivergentLog {newhead : EVersion} (hlog : pglog.log.InOrder)
    (h : pglog.rewindDivergentLog newhead info = some r) :
    Marked pglog r.pglog := by
  obtain ⟨-, missing, calls, hmerge, rfl⟩ := rewindDivergentLog_eq_some.1 h
  refine (marked_rewoundTo newhead hlog).trans (.of_same rfl ?_)
  rw [missing_rewoundTo]
  exact PgMissing.Tracks.merge hmerge

variable {olog : PgLog O}

section

omit [LinearOrder O]

theorem PgLog.InOrder.taken_lt {log : PgLog O} (hlog : log.InOrder) {p : PgLogEntry O}
    (he : e ∈ taken log olog) (hp : p ∈ log.log) : e.version < p.version :=
  (le_tail_of_mem_taken he).trans_lt (hlog.tail_lt p hp)

theorem PGLog.taken_sublist (log olog : PgLog O) : Sublist (taken log olog) olog.log := by
  rw [← taken_append_untaken log olog]
  exact sublist_append_left _ _

theorem PgLog.InOrder.extended {log : PgLog O} (hlog : log.InOrder) (holog : olog.InOrder) :
    (log.extended olog).InOrder := by
  have hsub := taken_sublist log olog
  have hmem : ∀ e ∈ (log.extended olog).log, e ∈ taken log olog ∨ e ∈ log.log := fun e he =>
    mem_append.1 he
  exact {
    sorted := pairwise_append.2 ⟨holog.sorted.sublist hsub, hlog.sorted, fun a ha b hb =>
      hlog.taken_lt ha hb⟩
    tail_lt := fun e he => by
      rcases hmem e he with he | he
      · exact (min_le_left _ _).trans_lt (holog.tail_lt e (hsub.subset he))
      · exact (min_le_right _ _).trans_lt (hlog.tail_lt e he)
    le_head := fun e he => by
      rcases hmem e he with he | he
      · exact (le_tail_of_mem_taken he).trans hlog.tail_le
      · exact hlog.le_head e he
    tail_le := (min_le_right _ _).trans hlog.tail_le
    proper := fun e he => by
      rcases hmem e he with he | he
      · exact holog.proper e (hsub.subset he)
      · exact hlog.proper e he
    tail_bounded := holog.tail_bounded.min hlog.tail_bounded }

theorem le_version_getLast (hsorted : entries.Pairwise fun a b => a.version < b.version)
    (he : e ∈ entries) : e.version ≤ (entries.getLast?.map (·.version)).getD 0 := by
  have hle : entries.Pairwise fun a b => a.version ≤ b.version := hsorted.imp fun h => h.le
  rw [getLast?_eq_some_getLast (ne_nil_of_mem he)]
  exact hle.rel_getLast_of_rel_getLast_getLast he le_rfl

theorem bounded_version_getLast (hbounded : ∀ e ∈ entries, e.version.Bounded) :
    ((entries.getLast?.map PgLogEntry.version).getD 0).Bounded := by
  cases hlast : entries.getLast? with
  | none => exact bounded_zero
  | some e => exact hbounded e (mem_of_mem_getLast? hlast)

end

theorem marked_mergeTail (m : Merged O) (holog : olog.InOrder) :
    Marked m.pglog (mergeTail m olog).1.pglog := by
  have hsub := takeWhile_sublist (l := olog.log) fun e => decide (e.version ≤ m.pglog.log.tail)
  unfold mergeTail
  dsimp only
  split
  · rw [markDirtyTo_eq]
    have hbounded := bounded_version_getLast fun e he => (holog.proper e (hsub.subset he)).bounded
    exact .of_extend rfl hbounded fun e he => le_version_getLast (holog.sorted.sublist hsub) he
  · exact .of_same rfl (.refl _)

omit [LinearOrder O] in
theorem PGLog.bounded_cutPoint {head origTail : EVersion} (horig : origTail.Bounded)
    (htail : olog.tail.Bounded) (holog : ∀ e ∈ olog.log, e.version.Bounded) :
    (cutPoint head origTail olog).1.Bounded := by
  unfold cutPoint
  dsimp only
  split
  · exact htail.max horig
  · rename_i e he
    have hkept := rdropWhile_prefix (fun e => head < e.version) olog.log
    exact (htail.max horig).max (holog e (hkept.subset (mem_of_mem_getLast? he)))

theorem marked_mergeHead {m : Merged O} {origTail : EVersion}
    (hbounded : (cutPoint m.pglog.log.head origTail olog).1.Bounded)
    (hle : (cutPoint m.pglog.log.head origTail olog).1 ≤ m.pglog.log.head)
    (h : mergeHead m origTail olog = some r) : Marked m.pglog r.pglog := by
  obtain ⟨hcut, log, missing, appended, missing', merged, happend, hmerge, rfl⟩ :=
    mergeHead_eq_some.1 h
  have hlog := (appendLogEntriesUpdateMissing_log happend).log_eq
  rw [markDirtyFrom_eq]
  have hrewind : Marked m.pglog { m.pglog with
      log := ({ log with head := olog.head } : IndexedLog O).skipCanRollbackToToHead
      dirtyFrom := min m.pglog.dirtyFrom (cutPoint m.pglog.log.head origTail olog).1 } :=
    .of_rewind hlog hbounded (fun e he => (hcut.2 e he).le) fun e he =>
      hle.trans (lt_of_mem_new he).le
  exact hrewind.trans (.of_same rfl ((PgMissing.Tracks.append happend).trans (.merge hmerge)))

theorem marked_mergeLog (hlog : pglog.log.InOrder) (holog : olog.InOrder)
    (h : pglog.mergeLog olog info = some r) :
    Marked pglog r.pglog := by
  obtain ⟨-, ⟨hotail, -⟩, h⟩ := mergeLog_eq_some.1 h
  have htail : Marked pglog (mergeTail ⟨pglog, info, [], false⟩ olog).1.pglog :=
    marked_mergeTail ⟨pglog, info, [], false⟩ holog
  have hextended := mergeTail_log ⟨pglog, info, [], false⟩ olog
  have horder : (mergeTail ⟨pglog, info, [], false⟩ olog).1.pglog.log.InOrder := by
    rw [hextended]
    exact hlog.extended holog
  rcases h with ⟨-, h⟩ | ⟨-, rfl⟩ | ⟨-, h⟩
  · exact htail.trans (marked_rewindDivergentLog horder h)
  · exact htail
  · refine htail.trans (marked_mergeHead ?_ ?_ h)
    · rw [mergeTail_olog]
      refine bounded_cutPoint hlog.tail_bounded holog.tail_bounded fun e he => ?_
      refine (holog.proper e ?_).bounded
      rw [← taken_append_untaken pglog.log.toPgLog olog]
      exact mem_append_right _ he
    · rw [mergeTail_olog, hextended]
      exact cutPoint_le hotail hlog.tail_le

/-- The entries up to the number of `cut` are not after it. -/
def PgLog.CutByNumber (log : PgLog O) (cut : EVersion) : Prop :=
  ∀ e ∈ log.log, e.version.version ≤ cut.version → e.version ≤ cut

/-- The calls that change the log or its missing set. -/
inductive LogCall (O : Type) where
  /-- `append_new_log_entries`, `rewind_divergent_log`, `merge_log`, `split_into` on
  either side, and the calls that change the missing set alone. -/
  | change (call : MissingCall O)
  | add (e : PgLogEntry O) (applied : Bool)
  | trim (trimTo : EVersion) (info : PgInfo O)
  | resetBackfillClaimLog (o : PgLog O)

namespace LogCall

def run (pglog : PGLog O) : LogCall O → Option (PGLog O)
  | .change call => call.run pglog
  | .add e applied => pglog.add e applied
  | .trim trimTo info => (pglog.trim trimTo info).map (·.1)
  | .resetBackfillClaimLog o => (pglog.resetBackfillClaimLog o).map (·.1)

/-- The arguments go with the log: versions are below `eversion_t::max()`, logs that are handed
over are in order, and where the log is cut back, its entries up to the number of the cut are not
after the cut. -/
def Admissible (log : PgLog O) : LogCall O → Prop
  | .add e _ => e.version.Proper
  | .trim trimTo _ => trimTo.Bounded ∧ trimTo ≤ log.head
  | .resetBackfillClaimLog o => o.InOrder
  | .change (.appendNewLogEntries _ entries) => ∀ e ∈ entries, e.version.Proper
  | .change (.rewind (.rewindDivergentLog newhead) _) => log.CutByNumber newhead
  | .change (.rewind (.mergeLog olog) _) =>
    olog.InOrder ∧ (olog.head < log.head → log.CutByNumber olog.head)
  | .change (.splitFrom parent _) => parent.log.InOrder
  | .change _ => True

end LogCall

/-! ## The log stays in order -/

section

omit [LinearOrder O]

/-- A part of a log in order, between a tail and a head. -/
theorem PgLog.InOrder.sublist {log log' : PgLog O} (h : log.InOrder)
    (hsub : Sublist log'.log log.log) (htail : ∀ e ∈ log'.log, log'.tail < e.version)
    (hhead : ∀ e ∈ log'.log, e.version ≤ log'.head) (hle : log'.tail ≤ log'.head)
    (hbounded : log'.tail.Bounded) : log'.InOrder :=
  ⟨h.sorted.sublist hsub, htail, hhead, hle, fun e he => h.proper e (hsub.subset he), hbounded⟩

theorem PgLog.InOrder.filter {log : PgLog O} (h : log.InOrder) (p : PgLogEntry O → Bool) :
    ({ log with log := log.log.filter p } : PgLog O).InOrder := by
  have hsub : Sublist (log.log.filter p) log.log := filter_sublist
  exact h.sublist hsub (fun e he => h.tail_lt e (hsub.subset he))
    (fun e he => h.le_head e (hsub.subset he)) h.tail_le h.tail_bounded

/-- New entries after a part of a log in order. -/
theorem PgLog.InOrder.append {log log' : PgLog O} {kept news : List (PgLogEntry O)}
    (h : log.InOrder) (hsub : Sublist kept log.log) (hlog : log'.log = kept ++ news)
    (htail : log'.tail = log.tail) (hhead : log.head ≤ log'.head)
    (hsorted : news.Pairwise fun a b => a.version < b.version)
    (hnews : ∀ e ∈ news, log.head < e.version ∧ e.version ≤ log'.head ∧ e.version.Proper) :
    log'.InOrder := by
  have hmem : ∀ e ∈ log'.log, e ∈ log.log ∨ e ∈ news := fun e he =>
    (mem_append.1 (hlog ▸ he)).imp_left (hsub.subset ·)
  refine ⟨?_, fun e he => ?_, fun e he => ?_, ?_, fun e he => ?_, htail ▸ h.tail_bounded⟩
  · rw [hlog]
    exact pairwise_append.2 ⟨h.sorted.sublist hsub, hsorted, fun a ha b hb =>
      (h.le_head a (hsub.subset ha)).trans_lt (hnews b hb).1⟩
  · rw [htail]
    rcases hmem e he with he | he
    · exact h.tail_lt e he
    · exact h.tail_le.trans_lt (hnews e he).1
  · rcases hmem e he with he | he
    · exact (h.le_head e he).trans hhead
    · exact (hnews e he).2.1
  · exact htail ▸ h.tail_le.trans hhead
  · rcases hmem e he with he | he
    · exact h.proper e he
    · exact (hnews e he).2.2

/-- A cut by number that drops no entry it should keep. -/
theorem PgLog.InOrder.rewound {log : PgLog O} {cut : EVersion} (h : log.InOrder)
    (hcut : log.CutByNumber cut) (hok : log.CutOk cut) : (log.rewound cut).InOrder := by
  have hwhole := log.kept_append_divergent cut
  have hsub : Sublist (log.kept cut) log.log := hwhole ▸ sublist_append_left _ _
  refine h.sublist hsub (fun e he => h.tail_lt e (hsub.subset he)) (fun e he => ?_) hok.1
    h.tail_bounded
  -- the last entry that is kept is not after the cut, and the others are before it
  have hne := ne_nil_of_mem he
  have hlast := getLast_mem hne
  have hnum : ¬ decide (cut.version < ((log.kept cut).getLast hne).version.version) = true :=
    rdropWhile_last_not _ _ hne
  rw [decide_eq_true_eq, not_lt] at hnum
  have hle : (log.kept cut).Pairwise fun a b => a.version ≤ b.version :=
    (h.sorted.sublist hsub).imp fun hab => hab.le
  exact (hle.rel_getLast_of_rel_getLast_getLast he le_rfl).trans
    (hcut _ (hsub.subset hlast) hnum)

end

theorem IndexedLog.inOrder_add {log' : IndexedLog O} {applied : Bool} (hlog : log.InOrder)
    (hproper : e.version.Proper) (h : log.add e applied = some log') : log'.InOrder := by
  have hlog' := IndexedLog.log_add h
  unfold IndexedLog.add at h
  rw [assert_bind_eq_some, assert_bind_eq_some, assert_bind_eq_some] at h
  obtain ⟨-, hlt, -, h⟩ := h
  have hends : log'.tail = log.tail ∧ log'.head = e.version := by
    cases h
    split <;> exact ⟨rfl, rfl⟩
  refine hlog.append (Sublist.refl _) hlog' hends.1 (hends.2 ▸ hlt.le) (pairwise_singleton _ _) ?_
  intro e' he'
  rw [mem_singleton.1 he', hends.2]
  exact ⟨hlt, le_rfl, hproper⟩

theorem inOrder_appendLogEntriesUpdateMissing {lastBackfill : O} {entries : List (PgLogEntry O)}
    {mr : Bool} {log log' : IndexedLog O} {missing missing' : PgMissing O}
    {calls : List (HandlerCall O)} (hlog : log.InOrder) (hproper : ∀ e ∈ entries, e.version.Proper)
    (h : appendLogEntriesUpdateMissing lastBackfill entries mr log missing =
      some (log', missing', calls)) : log'.InOrder := by
  unfold appendLogEntriesUpdateMissing at h
  rw [assert_bind_eq_some] at h
  refine Loop.foldlM_some_invariant (fun _ state => state.1.InOrder) h.2 hlog ?_
  intro pre p post acc acc' hsplit hinv hstep
  have hp : p ∈ entries := by rw [hsplit]; simp
  exact IndexedLog.inOrder_add hinv (hproper p hp) (appendLogEntry_eq_some hstep).1

theorem IndexedLog.toPgLog_foldl_unindex (entries : List (PgLogEntry O)) (log : IndexedLog O) :
    (entries.foldl (fun log e => log.unindex e) log).toPgLog = log.toPgLog := by
  induction entries generalizing log with
  | nil => rfl
  | cons e entries ih =>
    refine (ih _).trans ?_
    dsimp only [unindex]
    split
    · rfl
    · split <;> rfl

theorem inOrder_trim {trimTo : EVersion} {info' : PgInfo O} (hlog : pglog.log.InOrder)
    (hargs : trimTo.Bounded ∧ trimTo ≤ pglog.log.head)
    (h : pglog.trim trimTo info = some (pglog', info')) : pglog'.log.InOrder := by
  unfold trim at h
  split at h
  · rename_i htail
    rw [assert_bind_eq_some] at h
    obtain ⟨⟨log, popped⟩, htrim, h⟩ := of_bind h.2
    cases h
    unfold IndexedLog.trim at htrim
    rw [assert_bind_eq_some] at htrim
    cases htrim.2
    have hsame := IndexedLog.toPgLog_foldl_unindex
      (pglog.log.log.takeWhile fun e => decide (e.version ≤ trimTo)) pglog.log
    have hsub : Sublist (pglog.log.log.dropWhile fun e => decide (e.version ≤ trimTo))
        pglog.log.log := dropWhile_sublist _
    have hlater : ∀ e ∈ pglog.log.log.dropWhile fun e => decide (e.version ≤ trimTo),
        trimTo < e.version := by
      intro e he
      rw [SortedList.dropWhile_eq_filter] at he
      · simpa using (mem_filter.1 he).2
      · exact hlog.sorted.imp fun {a b} hab hb => by
          simp only [decide_eq_true_eq] at hb ⊢
          exact hab.le.trans hb
    refine hlog.sublist hsub ?_ ?_ ?_ ?_
    all_goals simp only [hsame, if_pos htail]
    · exact hlater
    · exact fun e he => hlog.le_head e (hsub.subset he)
    · exact hargs.2
    · exact hargs.1
  · cases h
    exact hlog

theorem inOrder_mergeLog (hlog : pglog.log.InOrder) (holog : olog.InOrder)
    (hcut : olog.head < pglog.log.head → pglog.log.CutByNumber olog.head)
    (h : pglog.mergeLog olog info = some r) : r.pglog.log.InOrder := by
  have hextended := mergeTail_log ⟨pglog, info, [], false⟩ olog
  have horder : (mergeTail ⟨pglog, info, [], false⟩ olog).1.pglog.log.InOrder := by
    rw [hextended]
    exact hlog.extended holog
  obtain ⟨-, -, ⟨hlt, h⟩ | ⟨-, rfl⟩ | ⟨hlt, h⟩⟩ := mergeLog_eq_some.1 h
  · obtain ⟨hok, missing, calls, -, rfl⟩ := rewindDivergentLog_eq_some.1 h
    rw [log_rewoundTo]
    refine horder.rewound ?_ hok
    rw [hextended]
    intro e he hnum
    rcases mem_append.1 he with he | he
    · exact holog.le_head e ((taken_sublist _ _).subset he)
    · exact hcut hlt e he hnum
  · exact horder
  · obtain ⟨-, log, missing, appended, missing', merged, happend, -, rfl⟩ := mergeHead_eq_some.1 h
    have happended := appendLogEntriesUpdateMissing_log happend
    have hkept := (mergeTail ⟨pglog, info, [], false⟩ olog).1.pglog.log.kept_append_divergent
      (cutPoint (mergeTail ⟨pglog, info, [], false⟩ olog).1.pglog.log.head pglog.log.tail
        (mergeTail ⟨pglog, info, [], false⟩ olog).2).1
    have hhead : (mergeTail ⟨pglog, info, [], false⟩ olog).2.head = olog.head := by
      rw [mergeTail_olog]
    have hohead : (mergeTail ⟨pglog, info, [], false⟩ olog).1.pglog.log.head = pglog.log.head := by
      rw [hextended]
      rfl
    have hnews : Sublist (cutPoint (mergeTail ⟨pglog, info, [], false⟩ olog).1.pglog.log.head
        pglog.log.tail (mergeTail ⟨pglog, info, [], false⟩ olog).2).2 olog.log := by
      rw [mergeTail_olog, ← taken_append_untaken pglog.log.toPgLog olog]
      exact (rtakeWhile_suffix _ _).sublist.trans (sublist_append_right _ _)
    refine horder.append (hkept ▸ sublist_append_left _ _) happended.log_eq happended.tail_eq ?_
      (holog.sorted.sublist hnews) fun e he => ⟨lt_of_mem_new he, ?_, ?_⟩
    · exact (hohead ▸ hhead ▸ hlt).le
    · exact hhead ▸ holog.le_head e (hnews.subset he)
    · exact holog.proper e (hnews.subset he)

theorem inOrder_missingCall {call : MissingCall O} (hlog : pglog.log.InOrder)
    (hargs : (LogCall.change call).Admissible pglog.log.toPgLog)
    (h : call.run pglog = some pglog') : pglog'.log.InOrder := by
  cases call with
  | rewind call info =>
    obtain ⟨r, hr, rfl⟩ := of_map h
    cases call with
    | rewindDivergentLog newhead =>
      obtain ⟨hok, missing, calls, -, rfl⟩ := rewindDivergentLog_eq_some.1 hr
      rw [log_rewoundTo]
      exact hlog.rewound hargs hok
    | mergeLog olog => exact inOrder_mergeLog hlog hargs.1 hargs.2 hr
  | appendNewLogEntries lastBackfill entries =>
    obtain ⟨⟨_, calls⟩, hr, rfl⟩ := of_map h
    obtain ⟨⟨log, missing, calls'⟩, happend, hr⟩ := of_bind hr
    have horder := inOrder_appendLogEntriesUpdateMissing hlog hargs happend
    cases entries with
    | nil =>
      cases hr
      exact horder
    | cons first rest =>
      dsimp only at hr
      rw [markWriteoutFrom_eq] at hr
      cases hr
      exact horder
  | recoverGot oid v =>
    change recoverGot pglog oid v = some pglog' at h
    unfold recoverGot at h
    split at h
    · obtain ⟨missing, -, h⟩ := of_bind h
      cases (of_assert h).2
      exact hlog
    · obtain ⟨missing, -, h⟩ := of_bind h
      cases (of_assert h).2
      exact hlog
  | missingAdd oid need held =>
    cases h
    exact hlog
  | splitInto inChild =>
    cases h
    unfold splitInto
    dsimp only
    rw [markDirtyTo_eq]
    exact hlog.filter _
  | splitFrom parent inChild =>
    cases h
    unfold splitInto
    dsimp only
    rw [markDirtyTo_eq]
    exact PgLog.InOrder.filter hargs _

/-- **The log stays in order.** -/
theorem inOrder_run {call : LogCall O} (hlog : pglog.log.InOrder)
    (hargs : call.Admissible pglog.log.toPgLog) (h : call.run pglog = some pglog') :
    pglog'.log.InOrder := by
  cases call with
  | change call => exact inOrder_missingCall hlog hargs h
  | add e applied =>
    obtain ⟨log, hadd, h⟩ := of_bind h
    rw [markWriteoutFrom_eq] at hadd h
    cases h
    exact IndexedLog.inOrder_add hlog hargs hadd
  | trim trimTo info =>
    obtain ⟨⟨_, info'⟩, hr, rfl⟩ := of_map h
    exact inOrder_trim hlog hargs hr
  | resetBackfillClaimLog o =>
    obtain ⟨⟨_, calls⟩, hr, rfl⟩ := of_map h
    obtain ⟨log, hclaim, hr⟩ := of_bind hr
    obtain ⟨-, hclaim⟩ := of_assert hclaim
    obtain ⟨-, hclaim⟩ := of_assert hclaim
    rw [markDirtyTo_eq] at hr
    cases hr
    cases hclaim
    obtain ⟨hsorted, htail, hhead, hle, hproper, hbounded⟩ : o.InOrder := hargs
    exact ⟨hsorted, htail, hhead, hle, hproper, hbounded⟩

/-! ## What the calls mark -/

theorem marked_missingCall {call : MissingCall O} (hlog : pglog.log.InOrder)
    (hlog' : pglog'.log.InOrder) (hargs : (LogCall.change call).Admissible pglog.log.toPgLog)
    (h : call.run pglog = some pglog') : Marked pglog pglog' := by
  cases call with
  | rewind call info =>
    obtain ⟨r, hr, rfl⟩ := of_map h
    cases call with
    | rewindDivergentLog newhead => exact marked_rewindDivergentLog hlog hr
    | mergeLog olog => exact marked_mergeLog hlog hargs.1 hr
  | appendNewLogEntries lastBackfill entries =>
    obtain ⟨⟨_, calls⟩, hr, rfl⟩ := of_map h
    exact marked_appendNewLogEntries hlog' hr
  | recoverGot oid v =>
    change recoverGot pglog oid v = some pglog' at h
    unfold recoverGot at h
    split at h
    · obtain ⟨missing, hgot, h⟩ := of_bind h
      cases (of_assert h).2
      unfold PgMissing.got at hgot
      split at hgot
      · cases hgot
      · cases (of_assert hgot).2
        exact .of_same rfl (.rm _ oid)
    · obtain ⟨missing, hgot, h⟩ := of_bind h
      cases hgot
      cases (of_assert h).2
      exact .of_same rfl (.refl _)
  | missingAdd oid need held =>
    cases h
    exact .of_same rfl (.add _ oid need held)
  | splitInto inChild =>
    cases h
    unfold splitInto at hlog' ⊢
    dsimp only at hlog' ⊢
    rw [markDirtyTo_eq] at hlog' ⊢
    exact .of_all hlog hlog' (PgMissing.Tracks.split inChild pglog.missing {}).1
  | splitFrom parent inChild =>
    cases h
    unfold splitInto at hlog' ⊢
    dsimp only at hlog' ⊢
    rw [markDirtyTo_eq] at hlog' ⊢
    exact .of_all hlog hlog' (PgMissing.Tracks.split inChild parent.missing pglog.missing).2

/-- **Every call marks what it changes.** -/
theorem marked_run {call : LogCall O} (hlog : pglog.log.InOrder)
    (hargs : call.Admissible pglog.log.toPgLog) (h : call.run pglog = some pglog') :
    Marked pglog pglog' := by
  have hlog' := inOrder_run hlog hargs h
  cases call with
  | change call => exact marked_missingCall hlog hlog' hargs h
  | add e applied => exact marked_add h
  | trim trimTo info =>
    obtain ⟨⟨_, info'⟩, hr, rfl⟩ := of_map h
    exact marked_trim hlog hr
  | resetBackfillClaimLog o =>
    obtain ⟨⟨_, calls⟩, hr, rfl⟩ := of_map h
    obtain ⟨log, -, hr⟩ := of_bind hr
    rw [markDirtyTo_eq] at hr
    cases hr
    exact .of_all hlog hlog' (.clear _)

end Marked

/-! ## Runs -/

section Runs

variable [LinearOrder O] (toStr : O ↪ List Char)

/-- The log is in order, and the store holds what is not marked. -/
structure Pending (pglog : PGLog O) (omap : Omap O) : Prop where
  inOrder : pglog.log.InOrder
  log : LogPending pglog omap
  missing : MissingPending toStr pglog.missing omap

/-- Nothing is marked. -/
structure PGLog.Clean (pglog : PGLog O) : Prop where
  dirtyTo_eq : pglog.dirtyTo = 0
  dirtyFrom_eq : pglog.dirtyFrom = max
  writeoutFrom_eq : pglog.writeoutFrom = max
  trimmed_eq : pglog.trimmed = ∅
  changed_eq : pglog.missing.changed = ∅

/-- A log and the object of the store that holds it, after calls and writes.  It starts
with what is stored and in order, and the arguments of the calls go with it. -/
inductive StoredRun : PGLog O → Omap O → Prop where
  | start {pglog : PGLog O} {omap : Omap O} : pglog.log.InOrder → pglog.Clean →
      Persisted toStr pglog omap → StoredRun pglog omap
  | call {pglog pglog' : PGLog O} {omap : Omap O} (call : LogCall O) : StoredRun pglog omap →
      call.Admissible pglog.log.toPgLog → call.run pglog = some pglog' → StoredRun pglog' omap
  | write {pglog : PGLog O} {omap : Omap O} (requireRollback : Bool) : StoredRun pglog omap →
      StoredRun (pglog.writeLogAndMissing toStr requireRollback omap).1
        (pglog.writeLogAndMissing toStr requireRollback omap).2

variable {toStr} {pglog pglog' : PGLog O} {omap : Omap O}

theorem Pending.of_persisted (hlog : pglog.log.InOrder) (hclean : pglog.Clean)
    (h : Persisted toStr pglog omap) : Pending toStr pglog omap where
  inOrder := hlog
  log :=
    { to_bounded := hclean.dirtyTo_eq ▸ bounded_zero
      from_bounded := hclean.dirtyFrom_eq ▸ bounded_max
      trimmed_bounded := by simp [hclean.trimmed_eq]
      known := by
        intro key val hkey hstored
        obtain ⟨e, he, rfl, -⟩ := (h.log_iff key val hkey).1 hstored
        exact ⟨e.version, hlog.proper e he, rfl⟩
      clean := by
        intro e he _ _ _
        refine ⟨(h.log_iff _ _ (isLogKey_keyName (hlog.proper e he).bounded)).2
          ⟨e, he, rfl, rfl⟩, ?_⟩
        rw [hclean.trimmed_eq]
        exact Finset.notMem_empty _
      stale := by
        intro v val hv hstored _ _ _
        obtain ⟨e, he, heq, -⟩ := (h.log_iff _ _ (isLogKey_keyName hv.bounded)).1 hstored
        exact ⟨e, he, (keyName_inj hv.bounded (hlog.proper e he).bounded heq).symm⟩ }
  missing :=
    { known := by
        intro key val hkey hstored
        obtain ⟨oid, -, -, rfl, -⟩ := (h.missing_iff key val hkey).1 hstored
        exact ⟨oid, rfl⟩
      clean := by
        intro oid _
        ext val
        rw [h.missing_iff _ _ (isMissingKey_missingKey toStr oid), map_eq_some_iff]
        constructor
        · rintro ⟨oid', item, hitem, heq, rfl⟩
          obtain rfl := missingKey_inj toStr heq
          exact ⟨item, hitem, rfl⟩
        · rintro ⟨item, hitem, rfl⟩
          exact ⟨oid, item, hitem, rfl, rfl⟩ }

/-- A call keeps the store pending. -/
theorem Pending.call (h : Pending toStr pglog omap) (hmarked : Marked pglog pglog')
    (hlog' : pglog'.log.InOrder) : Pending toStr pglog' omap where
  inOrder := hlog'
  log :=
    { to_bounded := hmarked.to_bounded h.log.to_bounded
      from_bounded := hmarked.from_bounded h.log.from_bounded
      trimmed_bounded := hmarked.trimmed_bounded h.log.trimmed_bounded
      known := h.log.known
      clean := by
        intro e he hto hfrom hwriteout
        obtain ⟨hold, htrim⟩ := hmarked.was_there e he hto hfrom hwriteout
        obtain ⟨hstored, hnot⟩ := h.log.clean e hold (hmarked.to_le.trans_lt hto)
          (hfrom.trans_le hmarked.from_le) (hwriteout.trans_le hmarked.writeout_le)
        exact ⟨hstored, fun hmem => hnot (htrim hmem)⟩
      stale := by
        intro v val hv hstored hto hfrom htrim
        obtain ⟨e, he, rfl⟩ := h.log.stale v val hv hstored (hmarked.to_le.trans hto)
          (hfrom.trans_le hmarked.from_le) fun hmem => htrim (hmarked.trimmed_subset hmem)
        exact ⟨e, hmarked.stays e he hto hfrom htrim, rfl⟩ }
  missing :=
    { known := h.missing.known
      clean := by
        intro oid hoid
        obtain ⟨hoid, heq⟩ := hmarked.tracks oid hoid
        rw [heq]
        exact h.missing.clean oid hoid }

theorem PGLog.clean_of_not_isDirty (h : ¬ pglog.isDirty) : pglog.Clean := by
  unfold isDirty at h
  simp only [Bool.or_eq_true, Bool.not_eq_true', decide_eq_true_eq, not_or, not_not] at h
  obtain ⟨⟨⟨⟨⟨-, hto⟩, hfrom⟩, hwriteout⟩, htrimmed⟩, hchanged⟩ := h
  exact ⟨hto, hfrom, hwriteout, htrimmed, hchanged⟩

/-- What a write leaves. -/
theorem Pending.write (h : Pending toStr pglog omap) (requireRollback : Bool) :
    (pglog.writeLogAndMissing toStr requireRollback omap).1.Clean ∧
      (pglog.writeLogAndMissing toStr requireRollback omap).1.log.InOrder ∧
      Persisted toStr (pglog.writeLogAndMissing toStr requireRollback omap).1
        (pglog.writeLogAndMissing toStr requireRollback omap).2 := by
  unfold writeLogAndMissing
  split <;> rename_i hdirty
  · refine ⟨⟨rfl, rfl, rfl, rfl, rfl⟩, h.inOrder, fun key val hkey => ?_, fun key val hkey => ?_⟩
    · exact h.log.log_iff_of_write h.inOrder hkey
    · exact h.missing.missing_iff_of_write h.log h.inOrder hkey
  · have hclean := clean_of_not_isDirty hdirty
    refine ⟨hclean, h.inOrder, fun key val hkey => ?_, fun key val hkey => ?_⟩
    · exact h.log.log_iff_of_clean h.inOrder hclean.dirtyTo_eq hclean.dirtyFrom_eq
        hclean.writeoutFrom_eq hclean.trimmed_eq hkey
    · exact h.missing.missing_iff_of_clean hclean.changed_eq hkey

theorem StoredRun.pending (h : StoredRun toStr pglog omap) : Pending toStr pglog omap := by
  induction h with
  | start hlog hclean hpersisted => exact .of_persisted hlog hclean hpersisted
  | call call _ hargs hrun ih =>
    exact ih.call (marked_run ih.inOrder hargs hrun) (inOrder_run ih.inOrder hargs hrun)
  | write requireRollback _ ih =>
    obtain ⟨hclean, hlog, hpersisted⟩ := ih.write requireRollback
    exact .of_persisted hlog hclean hpersisted

/-- **After each write the store holds the log and the missing set**, whatever calls and
writes came before, if the arguments of the calls go with the log. -/
theorem persisted_writeLogAndMissing (h : StoredRun toStr pglog omap) (requireRollback : Bool) :
    Persisted toStr (pglog.writeLogAndMissing toStr requireRollback omap).1
      (pglog.writeLogAndMissing toStr requireRollback omap).2 :=
  (h.pending.write requireRollback).2.2

end Runs

/-- Names for the objects of a small example. -/
def unary : ℕ ↪ List Char where
  toFun n := replicate n 'x'
  inj' := replicate_left_injective 'x'

/-- An entry that creates an object. -/
def created (v : EVersion) : PgLogEntry ℕ :=
  { op := .modify, soid := 1, version := v, priorVersion := 0 }

theorem inOrder_empty : ({} : PgLog ℕ).InOrder :=
  ⟨.nil, by simp, by simp, le_rfl, by simp, bounded_zero⟩

theorem persisted_unary_empty : Persisted unary {} fun _ => none :=
  ⟨by simp, by simp⟩

/-- Two entries are added and written; then the second is rewound, the first trimmed, and the log
written again. -/
theorem persisted_rewound_trimmed :
    ∃ p₁ p₂ p₃ p₄ w, LogCall.run {} (.add (created ⟨1, 1⟩) false) = some p₁ ∧
      LogCall.run p₁ (.add (created ⟨1, 2⟩) false) = some p₂ ∧
      w = p₂.writeLogAndMissing unary false (fun _ => none) ∧
      w.1.log.log = [created ⟨1, 1⟩, created ⟨1, 2⟩] ∧
      LogCall.run w.1 (.change (.rewind (.rewindDivergentLog ⟨1, 1⟩) ⟨⟨1, 2⟩, ⟨1, 2⟩, 0, 5⟩)) =
        some p₃ ∧
      LogCall.run p₃ (.trim ⟨1, 1⟩ ⟨⟨1, 1⟩, ⟨1, 1⟩, 0, 5⟩) = some p₄ ∧ p₄.log.log = [] ∧
      Persisted unary (p₄.writeLogAndMissing unary false w.2).1
        (p₄.writeLogAndMissing unary false w.2).2 := by
  have hrun : ((LogCall.run {} (.add (created ⟨1, 1⟩) false)).bind fun p₁ =>
      (LogCall.run p₁ (.add (created ⟨1, 2⟩) false)).bind fun p₂ =>
      (LogCall.run (p₂.writeLogAndMissing unary false fun _ => none).1
        (.change (.rewind (.rewindDivergentLog ⟨1, 1⟩) ⟨⟨1, 2⟩, ⟨1, 2⟩, 0, 5⟩))).bind fun p₃ =>
      (LogCall.run p₃ (.trim ⟨1, 1⟩ ⟨⟨1, 1⟩, ⟨1, 1⟩, 0, 5⟩)).map fun p₄ =>
        ((p₂.writeLogAndMissing unary false fun _ => none).1.log.log, p₃.log.head, p₄.log.log)) =
      some ([created ⟨1, 1⟩, created ⟨1, 2⟩], ⟨1, 1⟩, []) := by
    decide +kernel
  obtain ⟨p₁, hadd₁, hrun⟩ := of_bind hrun
  obtain ⟨p₂, hadd₂, hrun⟩ := of_bind hrun
  obtain ⟨p₃, hrewind, hrun⟩ := of_bind hrun
  obtain ⟨p₄, htrim, heq⟩ := of_map hrun
  obtain ⟨hlog, hhead, hnil⟩ : _ ∧ _ ∧ _ := by simpa using heq
  have hstart : StoredRun unary {} fun _ => none :=
    .start inOrder_empty ⟨rfl, rfl, rfl, rfl, rfl⟩ persisted_unary_empty
  have hproper₁ : (created ⟨1, 1⟩).version.Proper := ⟨by decide, by decide, by decide⟩
  have hproper₂ : (created ⟨1, 2⟩).version.Proper := ⟨by decide, by decide, by decide⟩
  have hwritten := ((hstart.call (.add (created ⟨1, 1⟩) false) hproper₁ hadd₁).call
    (.add (created ⟨1, 2⟩) false) hproper₂ hadd₂).write false
  have hcut : (p₂.writeLogAndMissing unary false fun _ => none).1.log.CutByNumber ⟨1, 1⟩ := by
    unfold PgLog.CutByNumber
    rw [hlog]
    decide
  have htrimmed := (hwritten.call (.change (.rewind (.rewindDivergentLog _) _)) hcut hrewind).call
    (.trim _ _) ⟨hproper₁.bounded, hhead ▸ le_rfl⟩ htrim
  exact ⟨p₁, p₂, p₃, p₄, _, hadd₁, hadd₂, rfl, hlog, hrewind, htrim, hnil,
    persisted_writeLogAndMissing htrimmed false⟩

/-- An entry is added, written, rewound, and the log written again. -/
def writtenAndRewound (v : EVersion) : Option (PGLog ℕ × Omap ℕ) := do
  let pglog ← LogCall.run {} (.add (created v) true)
  let (pglog, omap) := pglog.writeLogAndMissing unary false fun _ => none
  let pglog ← LogCall.run pglog (.change (.rewind (.rewindDivergentLog 0) ⟨v, v, 0, 5⟩))
  some (pglog.writeLogAndMissing unary false omap)

/-- An entry is added and written, and the log is merged with one that has an older entry of the
same number.  Two more are added, written, and the second of them is rewound. -/
def mergedByNumber : Option (PGLog ℕ × Omap ℕ) := do
  let pglog ← LogCall.run {} (.add (created ⟨5, 10⟩) false)
  let (pglog, omap) := pglog.writeLogAndMissing unary false fun _ => none
  let pglog ← LogCall.run pglog (.change (.rewind
    (.mergeLog { head := ⟨3, 10⟩, log := [created ⟨3, 10⟩] }) ⟨⟨5, 10⟩, ⟨5, 10⟩, 0, 5⟩))
  let pglog ← LogCall.run pglog (.add (created ⟨4, 11⟩) false)
  let pglog ← LogCall.run pglog (.add (created ⟨4, 12⟩) false)
  let (pglog, omap) := pglog.writeLogAndMissing unary false omap
  let pglog ← LogCall.run pglog (.change (.rewind (.rewindDivergentLog ⟨4, 11⟩)
    ⟨⟨4, 12⟩, ⟨4, 12⟩, 0, 5⟩))
  some (pglog.writeLogAndMissing unary false omap)

/-- **The store can differ from the log.**  An entry of version `eversion_t::max()` stays in the
store.  And an entry that `merge_log` has kept for its number, although it is after the new head,
is removed from the store with what is rewound later. -/
theorem not_persisted :
    (∃ s, writtenAndRewound max = some s ∧ ¬ Persisted unary s.1 s.2) ∧
      ∃ s, mergedByNumber = some s ∧ ¬ Persisted unary s.1 s.2 := by
  constructor
  · have hrun : (writtenAndRewound max).map (fun s =>
        (s.1.log.log, (s.2 max.keyName).isSome)) = some ([], true) := by
      decide +kernel
    obtain ⟨s, hs, heq⟩ := of_map hrun
    obtain ⟨hlog, hstored⟩ := Prod.mk.inj heq
    refine ⟨s, hs, fun h => ?_⟩
    obtain ⟨val, hval⟩ := isSome_iff_exists.1 hstored
    obtain ⟨e, he, -⟩ := (h.log_iff _ val (isLogKey_keyName bounded_max)).1 hval
    rw [hlog] at he
    exact absurd he not_mem_nil
  · have hrun : mergedByNumber.map (fun s =>
        (s.1.log.log, (s.2 (⟨5, 10⟩ : EVersion).keyName).isSome)) =
          some ([created ⟨5, 10⟩, created ⟨4, 11⟩], false) := by
      decide +kernel
    obtain ⟨s, hs, heq⟩ := of_map hrun
    obtain ⟨hlog, hstored⟩ := Prod.mk.inj heq
    refine ⟨s, hs, fun h => ?_⟩
    have hval := (h.log_iff _ _ (isLogKey_keyName (v := ⟨5, 10⟩) ⟨by decide, by decide⟩)).2
      ⟨created ⟨5, 10⟩, by simp [hlog], rfl, rfl⟩
    rw [hval] at hstored
    cases hstored

end Ceph.Osd
