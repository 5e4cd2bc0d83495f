import Ceph.Osd.PGLogWrite
import Ceph.Osd.PGMissingIndex

/-!
# The stored log is the log

What `write_log_and_missing` leaves in the store is the log and the missing set, after
any run of calls.  Between two writes the marks say where the store may differ: what is
up to `dirty_to`, from `dirty_from` or `writeout_from` on, or in `trimmed`
(`LogPending`), and the items of the objects in `changed` (`MissingPending`).
-/

namespace Ceph.Osd

open Option PGLog EVersion

variable {O : Type}

/-- The entries of the log lie in order between tail and head, and the versions are
`eversion_t`s, those of the entries below `eversion_t::max()`. -/
structure PgLog.InOrder (log : PgLog O) : Prop where
  sorted : log.log.Pairwise fun a b => a.version < b.version
  tail_lt : ∀ e ∈ log.log, log.tail < e.version
  le_head : ∀ e ∈ log.log, e.version ≤ log.head
  tail_le : log.tail ≤ log.head
  proper : ∀ e ∈ log.log, e.version.Proper
  tail_bounded : log.tail.Bounded

theorem PgLog.InOrder.eq_of_version {log : PgLog O} (h : log.InOrder) {a b : PgLogEntry O}
    (ha : a ∈ log.log) (hb : b ∈ log.log) (hv : a.version = b.version) : a = b := by
  have hne : log.log.Pairwise fun x y => x.version ≠ y.version :=
    h.sorted.imp fun hxy => hxy.ne
  have : Std.Symm fun x y : PgLogEntry O => x.version ≠ y.version := ⟨fun _ _ hxy => hxy.symm⟩
  by_contra hab
  exact hne.forall ha hb hab hv

variable [LinearOrder O] (toStr : O ↪ List Char)

/-- **The store holds the log.**  The keys that are read back as log entries are those of
the entries of the log, with these entries, and the keys that are read back as missing
items are those of the missing objects, with their items. -/
structure Persisted (pglog : PGLog O) (omap : Omap O) : Prop where
  log_iff : ∀ key val, isLogKey key → (omap key = some val ↔
    ∃ e ∈ pglog.log.log, key = e.version.keyName ∧ val = .entry e)
  missing_iff : ∀ key val, isMissingKey key → (omap key = some val ↔
    ∃ oid item, pglog.missing.items.lookup oid = some item ∧ key = missingKey toStr oid ∧
      val = .item oid item)

/-! ## The log between writes -/

/-- Where the store holds the log: outside of what is marked. -/
structure LogPending (pglog : PGLog O) (omap : Omap O) : Prop where
  to_bounded : pglog.dirtyTo.Bounded
  from_bounded : pglog.dirtyFrom.Bounded
  trimmed_bounded : ∀ v ∈ pglog.trimmed, v.Bounded
  known : ∀ key val, isLogKey key → omap key = some val → ∃ v : EVersion, v.Proper ∧ key = v.keyName
  clean : ∀ e ∈ pglog.log.log, pglog.dirtyTo < e.version → e.version < pglog.dirtyFrom →
    e.version < pglog.writeoutFrom →
    omap e.version.keyName = some (.entry e) ∧ e.version ∉ pglog.trimmed
  stale : ∀ (v : EVersion) val, v.Proper → omap v.keyName = some val → pglog.dirtyTo ≤ v →
    v < pglog.dirtyFrom → v ∉ pglog.trimmed → ∃ e ∈ pglog.log.log, e.version = v

variable {key : List Char} {val : OmapValue O} {rollback : Bool}

section Log

variable {pglog : PGLog O} {omap : Omap O}

omit [LinearOrder O] in
theorem PGLog.mem_writtenEntries (hlog : pglog.log.InOrder) {e : PgLogEntry O} :
    e ∈ pglog.writtenEntries ↔ e ∈ pglog.log.log ∧ (e.version ≤ pglog.dirtyTo ∨
        (pglog.dirtyFrom ≤ e.version ∨ pglog.writeoutFrom ≤ e.version) ∧
          pglog.dirtyTo ≤ e.version) := by
  have hfront : (pglog.log.log.takeWhile fun p => decide (p.version ≤ pglog.dirtyTo)) =
      pglog.log.log.filter fun p => decide (p.version ≤ pglog.dirtyTo) :=
    SortedList.takeWhile_eq_filter <| hlog.sorted.imp fun {a b} hab hb => by
      simp only [decide_eq_true_eq] at hb ⊢
      exact hab.le.trans hb
  have hback := SortedList.rtakeWhile_eq_filter
    (p := fun p =>
      (decide (pglog.dirtyFrom ≤ p.version) || decide (pglog.writeoutFrom ≤ p.version)) &&
      decide (pglog.dirtyTo ≤ p.version)) <| hlog.sorted.imp fun {a b} hab hb => by
      simp only [Bool.not_eq_true', Bool.and_eq_false_iff, Bool.or_eq_false_iff,
        decide_eq_false_iff_not, not_le] at hb ⊢
      rcases hb with ⟨h1, h2⟩ | h
      · exact .inl ⟨hab.trans h1, hab.trans h2⟩
      · exact .inr (hab.trans h)
  have hmem : e ∈ pglog.log.log.reverse.takeWhile (fun p =>
      (decide (pglog.dirtyFrom ≤ p.version) || decide (pglog.writeoutFrom ≤ p.version)) &&
        decide (pglog.dirtyTo ≤ p.version)) ↔
      e ∈ pglog.log.log ∧ (pglog.dirtyFrom ≤ e.version ∨ pglog.writeoutFrom ≤ e.version) ∧
        pglog.dirtyTo ≤ e.version := by
    rw [← List.mem_reverse]
    change e ∈ List.rtakeWhile _ _ ↔ _
    rw [hback]
    simp
  unfold writtenEntries
  rw [List.mem_append, hfront, hmem, List.mem_filter, decide_eq_true_eq, and_or_left]

omit [LinearOrder O] in
/-- A log that is not dirty is stored as it is. -/
theorem LogPending.log_iff_of_clean (h : LogPending pglog omap) (hlog : pglog.log.InOrder)
    (hto : pglog.dirtyTo = 0) (hfrom : pglog.dirtyFrom = max)
    (hwriteout : pglog.writeoutFrom = max) (htrimmed : pglog.trimmed = ∅)
    (hkey : isLogKey key) :
    omap key = some val ↔ ∃ e ∈ pglog.log.log, key = e.version.keyName ∧ val = .entry e := by
  have hclean : ∀ e ∈ pglog.log.log, omap e.version.keyName = some (.entry e) := by
    intro e he
    have hpos : 0 < e.version := (zero_le _).trans_lt (hlog.tail_lt e he)
    have hmax := (hlog.proper e he).lt_max
    exact (h.clean e he (hto ▸ hpos) (hfrom ▸ hmax) (hwriteout ▸ hmax)).1
  constructor
  · intro hstored
    obtain ⟨v, hv, rfl⟩ := h.known key val hkey hstored
    obtain ⟨e, he, rfl⟩ := h.stale v val hv hstored (hto ▸ zero_le v)
      (hfrom ▸ hv.lt_max) (htrimmed ▸ Finset.notMem_empty v)
    exact ⟨e, he, rfl, some_inj.1 (hstored.symm.trans (hclean e he))⟩
  · rintro ⟨e, he, rfl, rfl⟩
    exact hclean e he

variable {toStr}

/-- The keys of versions and objects that are removed one by one. -/
theorem PGLog.mem_toRemove (hkey : isLogKey key ∨ isMissingKey key) :
    key ∈ pglog.toRemove toStr ↔ (∃ v ∈ pglog.trimmed, v.keyName = key) ∨
      ∃ oid ∈ pglog.missing.changed, pglog.missing.items.lookup oid = none ∧
        missingKey toStr oid = key := by
  have hother : key ∉ if pglog.clearDivergentPriors then ["divergent_priors".toList] else [] := by
    split
    · rw [List.mem_singleton]
      rintro rfl
      exact absurd hkey (by decide)
    · exact List.not_mem_nil
  simp only [toRemove, List.mem_append, hother, or_false, List.mem_map, List.mem_filter,
    SortedList.mem_ascending, and_assoc, Bool.not_eq_true', PgMissing.isMissing_eq_false]

/-- Which keys of versions are removed. -/
theorem PGLog.removed_keyName_iff (h : LogPending pglog omap) {v : EVersion} (hv : v.Proper) :
    pglog.Removed toStr v.keyName ↔
      v < pglog.dirtyTo ∨ pglog.dirtyFrom ≤ v ∨ v ∈ pglog.trimmed := by
  have hremove : v.keyName ∈ pglog.toRemove toStr ↔ v ∈ pglog.trimmed := by
    have hlogKey := isLogKey_keyName hv.bounded
    rw [mem_toRemove (.inl hlogKey)]
    constructor
    · rintro (⟨v', hv', heq⟩ | ⟨oid, -, -, heq⟩)
      · exact keyName_inj (h.trimmed_bounded v' hv') hv.bounded heq ▸ hv'
      · exact absurd hlogKey
          (not_isLogKey_of_isMissingKey (heq ▸ isMissingKey_missingKey toStr oid))
    · exact fun hmem => .inl ⟨v, hmem, rfl⟩
  unfold Removed
  rw [hremove, keyName_lt_iff hv.bounded h.to_bounded, keyName_le_iff bounded_zero hv.bounded,
    keyName_le_iff h.from_bounded hv.bounded,
    keyName_lt_iff hv.bounded bounded_max]
  constructor
  · rintro (⟨-, -, hlt⟩ | ⟨-, hle, -⟩ | hmem)
    · exact .inl hlt
    · exact .inr (.inl hle)
    · exact .inr (.inr hmem)
  · rintro (hlt | hle | hmem)
    · exact .inl ⟨pos_of_lt hlt, zero_le v, hlt⟩
    · -- if everything up to the end is cleared, so is this
      by_cases hmax : pglog.dirtyTo = max
      · rw [hmax]
        exact .inl ⟨by decide, zero_le v, hv.lt_max⟩
      · exact .inr (.inl ⟨⟨hmax, (hle.trans_lt hv.lt_max).ne⟩, hle, hv.lt_max⟩)
    · exact .inr (.inr hmem)

/-- What is written under the keys of versions and objects. -/
theorem PGLog.mem_writeKm (hkey : isLogKey key ∨ isMissingKey key) :
    (key, val) ∈ pglog.writeKm toStr rollback ↔
      (∃ e ∈ pglog.writtenEntries, key = e.version.keyName ∧ val = .entry e) ∨
        ∃ oid ∈ pglog.missing.changed, ∃ item, pglog.missing.items.lookup oid = some item ∧
          key = missingKey toStr oid ∧ val = .item oid item := by
  have hother : (key, val) ∉ if rollback then
      [("can_rollback_to".toList, .version pglog.log.canRollbackTo),
        ("rollback_info_trimmed_to".toList, .version pglog.log.rollbackInfoTrimmedTo)] else [] := by
    split
    · simp only [List.mem_cons, Prod.mk.injEq, List.not_mem_nil, or_false]
      rintro (⟨rfl, -⟩ | ⟨rfl, -⟩)
      · exact absurd hkey (by decide)
      · exact absurd hkey (by decide)
    · exact List.not_mem_nil
  simp only [writeKm, List.mem_append, hother, or_false, List.mem_map, List.mem_filterMap,
    SortedList.mem_ascending, map_eq_some_iff, Prod.mk.injEq, eq_comm (a := key),
    eq_comm (a := val)]

/-- A dirty log is stored by the write. -/
theorem LogPending.log_iff_of_write (h : LogPending pglog omap) (hlog : pglog.log.InOrder)
    (hkey : isLogKey key) :
    setkeys ((pglog.writeOps toStr).foldl OmapOp.apply omap) (pglog.writeKm toStr rollback) key =
        some val ↔ ∃ e ∈ pglog.log.log, key = e.version.keyName ∧ val = .entry e := by
  have hwritten : ∀ e ∈ pglog.writtenEntries, e ∈ pglog.log.log := fun e he =>
    ((mem_writtenEntries hlog).1 he).1
  have hmem : ∀ val, (key, val) ∈ pglog.writeKm toStr rollback ↔
      ∃ e ∈ pglog.writtenEntries, key = e.version.keyName ∧ val = .entry e := by
    intro val
    rw [mem_writeKm (.inl hkey), or_iff_left]
    rintro ⟨oid, -, -, -, rfl, -⟩
    exact not_isLogKey_of_isMissingKey (isMissingKey_missingKey toStr oid) hkey
  -- two entries under one key are the same
  have hunique : ∀ val val', (key, val) ∈ pglog.writeKm toStr rollback →
      (key, val') ∈ pglog.writeKm toStr rollback → val = val' := by
    intro val val' hval hval'
    obtain ⟨e, he, rfl, rfl⟩ := (hmem val).1 hval
    obtain ⟨e', he', heq, rfl⟩ := (hmem val').1 hval'
    rw [hlog.eq_of_version (hwritten e he) (hwritten e' he') (keyName_inj
      (hlog.proper e (hwritten e he)).bounded (hlog.proper e' (hwritten e' he')).bounded heq)]
  -- what is not written is clean
  have hclean : ∀ e ∈ pglog.log.log, e ∉ pglog.writtenEntries →
      omap e.version.keyName = some (.entry e) ∧ ¬ pglog.Removed toStr e.version.keyName := by
    intro e he hout
    rw [mem_writtenEntries hlog, not_and, not_or, not_le] at hout
    obtain ⟨hto, hrest⟩ := hout he
    have hmarks : e.version < pglog.dirtyFrom ∧ e.version < pglog.writeoutFrom := by
      constructor
      · exact not_le.1 fun hle => hrest ⟨.inl hle, hto.le⟩
      · exact not_le.1 fun hle => hrest ⟨.inr hle, hto.le⟩
    obtain ⟨hstored, htrimmed⟩ := h.clean e he hto hmarks.1 hmarks.2
    refine ⟨hstored, ?_⟩
    rw [removed_keyName_iff h (hlog.proper e he)]
    rintro (hlt | hle | hmem)
    · exact absurd hlt hto.not_gt
    · exact absurd hle hmarks.1.not_ge
    · exact htrimmed hmem
  rw [setkeys_eq_some_iff hunique, foldl_writeOps]
  simp only [hmem]
  constructor
  · rintro (⟨e, he, rfl, rfl⟩ | ⟨hnot, hstored, hkept⟩)
    · exact ⟨e, hwritten e he, rfl, rfl⟩
    · obtain ⟨v, hv, rfl⟩ := h.known key val hkey hstored
      rw [removed_keyName_iff h hv, not_or, not_or, not_lt, not_le] at hkept
      obtain ⟨e, he, rfl⟩ := h.stale v val hv hstored hkept.1 hkept.2.1 hkept.2.2
      have hstored' := (hclean e he fun hin => hnot _ ⟨e, hin, rfl, rfl⟩).1
      exact ⟨e, he, rfl, some_inj.1 (hstored.symm.trans hstored')⟩
  · rintro ⟨e, he, rfl, rfl⟩
    by_cases hin : e ∈ pglog.writtenEntries
    · exact .inl ⟨e, hin, rfl, rfl⟩
    · refine .inr ⟨?_, hclean e he hin⟩
      rintro val ⟨e', he', heq, -⟩
      obtain rfl := hlog.eq_of_version he (hwritten e' he') (keyName_inj
        (hlog.proper e he).bounded (hlog.proper e' (hwritten e' he')).bounded heq)
      exact hin he'

end Log

/-! ## The missing set between writes -/

/-- Where the store holds the missing set: outside of `changed`. -/
structure MissingPending (missing : PgMissing O) (omap : Omap O) : Prop where
  known : ∀ key val, isMissingKey key → omap key = some val → ∃ oid, key = missingKey toStr oid
  clean : ∀ oid ∉ missing.changed,
    omap (missingKey toStr oid) = (missing.items.lookup oid).map (.item oid)

section Missing

variable {toStr} {pglog : PGLog O} {omap : Omap O}

theorem MissingPending.missing_iff_of_clean (h : MissingPending toStr pglog.missing omap)
    (hclean : pglog.missing.changed = ∅) (hkey : isMissingKey key) :
    omap key = some val ↔ ∃ oid item, pglog.missing.items.lookup oid = some item ∧
      key = missingKey toStr oid ∧ val = .item oid item := by
  have hstored := fun oid => h.clean oid (hclean ▸ Finset.notMem_empty oid)
  constructor
  · intro hval
    obtain ⟨oid, rfl⟩ := h.known key val hkey hval
    rw [hstored] at hval
    obtain ⟨item, hitem, rfl⟩ := of_map hval
    exact ⟨oid, item, hitem, rfl, rfl⟩
  · rintro ⟨oid, item, hitem, rfl, rfl⟩
    rw [hstored, hitem]
    rfl

/-- Which keys of items are removed. -/
theorem PGLog.removed_missingKey_iff (hlog : LogPending pglog omap) (oid : O) :
    pglog.Removed toStr (missingKey toStr oid) ↔
      oid ∈ pglog.missing.changed ∧ pglog.missing.items.lookup oid = none := by
  have hmissing := isMissingKey_missingKey toStr oid
  have hremove : missingKey toStr oid ∈ pglog.toRemove toStr ↔
      oid ∈ pglog.missing.changed ∧ pglog.missing.items.lookup oid = none := by
    rw [mem_toRemove (.inr hmissing)]
    constructor
    · rintro (⟨v, hv, heq⟩ | ⟨oid', hchanged, hnone, heq⟩)
      · exact absurd (isLogKey_keyName (hlog.trimmed_bounded v hv))
          (not_isLogKey_of_isMissingKey (heq ▸ hmissing))
      · exact missingKey_inj toStr heq ▸ ⟨hchanged, hnone⟩
    · exact fun ⟨hchanged, hnone⟩ => .inr ⟨oid, hchanged, hnone, rfl⟩
  unfold Removed
  rw [hremove]
  constructor
  · rintro (⟨-, -, hlt⟩ | ⟨-, -, hlt⟩ | h)
    · exact absurd hlt (keyName_lt_of_isMissingKey hmissing hlog.to_bounded).not_gt
    · exact absurd hlt (keyName_lt_of_isMissingKey hmissing bounded_max).not_gt
    · exact h
  · exact fun h => .inr (.inr h)

/-- A dirty missing set is stored by the write. -/
theorem MissingPending.missing_iff_of_write (h : MissingPending toStr pglog.missing omap)
    (hpending : LogPending pglog omap) (hlog : pglog.log.InOrder) (hkey : isMissingKey key) :
    setkeys ((pglog.writeOps toStr).foldl OmapOp.apply omap) (pglog.writeKm toStr rollback) key =
        some val ↔
      ∃ oid item, pglog.missing.items.lookup oid = some item ∧ key = missingKey toStr oid ∧
        val = .item oid item := by
  have hmem : ∀ val, (key, val) ∈ pglog.writeKm toStr rollback ↔
      ∃ oid ∈ pglog.missing.changed, ∃ item, pglog.missing.items.lookup oid = some item ∧
        key = missingKey toStr oid ∧ val = .item oid item := by
    intro val
    rw [mem_writeKm (.inr hkey), or_iff_right]
    rintro ⟨e, he, rfl, -⟩
    have hproper := hlog.proper e ((mem_writtenEntries hlog).1 he).1
    exact not_isLogKey_of_isMissingKey hkey (isLogKey_keyName hproper.bounded)
  have hunique : ∀ val val', (key, val) ∈ pglog.writeKm toStr rollback →
      (key, val') ∈ pglog.writeKm toStr rollback → val = val' := by
    intro val val' hval hval'
    obtain ⟨oid, -, item, hitem, rfl, rfl⟩ := (hmem val).1 hval
    obtain ⟨oid', -, item', hitem', heq, rfl⟩ := (hmem val').1 hval'
    obtain rfl := missingKey_inj toStr heq
    rw [some_inj.1 (hitem.symm.trans hitem')]
  rw [setkeys_eq_some_iff hunique, foldl_writeOps]
  simp only [hmem]
  constructor
  · rintro (⟨oid, -, item, hitem, rfl, rfl⟩ | ⟨hnot, hstored, hkept⟩)
    · exact ⟨oid, item, hitem, rfl, rfl⟩
    · obtain ⟨oid, rfl⟩ := h.known key val hkey hstored
      rw [removed_missingKey_iff hpending] at hkept
      -- a changed object is written or removed
      have hunchanged : oid ∉ pglog.missing.changed := fun hoid => by
        cases hitem : pglog.missing.items.lookup oid with
        | none => exact hkept ⟨hoid, hitem⟩
        | some item => exact hnot _ ⟨oid, hoid, item, hitem, rfl, rfl⟩
      rw [h.clean oid hunchanged] at hstored
      obtain ⟨item, hitem, rfl⟩ := of_map hstored
      exact ⟨oid, item, hitem, rfl, rfl⟩
  · rintro ⟨oid, item, hitem, rfl, rfl⟩
    by_cases hoid : oid ∈ pglog.missing.changed
    · exact .inl ⟨oid, hoid, item, hitem, rfl, rfl⟩
    · refine .inr ⟨?_, by rw [h.clean oid hoid, hitem]; rfl, ?_⟩
      · rintro val ⟨oid', hoid', -, -, heq, -⟩
        exact hoid (missingKey_inj toStr heq ▸ hoid')
      · rw [removed_missingKey_iff hpending]
        exact fun hrem => hoid hrem.1

end Missing

end Ceph.Osd
