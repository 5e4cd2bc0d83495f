import Ceph.Osd.PGLogSteps

/-!
# Histories

What a log says about the objects of a placement group.  `base` gives the version
each object had at the tail of the log; together with the entries it determines the
version every object has now.  In a log that records what happened, an entry knows
the version its object had before it.

Two logs of one placement group share their history up to the point where they
diverge.
-/

namespace Ceph.Osd

open List Option PgLog PGLog SortedList

variable {O : Type} [LinearOrder O]

/-! ## The version of an object -/

variable (base : O → Option EVersion)

/-- The version an object has after the entries, none if it does not exist. -/
def present (entries : List (PgLogEntry O)) (o : O) : Option EVersion :=
  match newest entries o with
  | some e => if e.isUpdate then some e.version else none
  | none => base o

variable {entries : List (PgLogEntry O)}

theorem present_eq_base {base : O → Option EVersion} {o : O} (h : newest entries o = none) :
    present base entries o = base o := by
  rw [present, h]

theorem present_append (a b : List (PgLogEntry O)) (o : O) :
    present base (a ++ b) o = present (present base a) b o := by
  unfold present
  rw [newest_append]
  cases newest b o <;> rfl

theorem present_congr {base base' : O → Option EVersion} {o : O} (h : base o = base' o)
    (entries : List (PgLogEntry O)) : present base entries o = present base' entries o := by
  unfold present
  rw [h]

theorem present_concat (entries : List (PgLogEntry O)) (e : PgLogEntry O) (o : O) :
    present base (entries ++ [e]) o =
      if e.soid = o ∧ ¬ e.isError then (if e.isUpdate then some e.version else none)
      else present base entries o := by
  unfold present
  rw [newest_concat]
  by_cases h : e.soid = o ∧ ¬ e.isError
  · rw [if_pos h, if_pos h]
  · rw [if_neg h, if_neg h]

theorem newest_eq_none_of_entriesOf {o : O} (h : entriesOf o entries = []) :
    newest entries o = none := by
  rw [newest, h]
  rfl

variable {e : PgLogEntry O}

section

omit [LinearOrder O]

namespace PgLogEntry

/-- An entry that is not an error updates or deletes. -/
theorem isDelete_of_not_isUpdate (he : e.isError = false) (hu : e.isUpdate = false) :
    e.isDelete := by
  unfold isError at he
  unfold isUpdate at hu
  unfold isDelete
  cases hop : e.op <;> simp_all

theorem isError_of_isDelete (h : e.isDelete) : e.isError = false := by
  unfold isDelete at h
  unfold isError
  cases hop : e.op <;> simp_all

theorem isUpdate_of_isDelete (h : e.isDelete) : e.isUpdate = false := by
  unfold isDelete at h
  unfold isUpdate
  cases hop : e.op <;> simp_all

end PgLogEntry

end

/-! ## Logs that record what happened -/

/-- The log records what happened to objects that had the versions `base` at its tail.
Errors change no object and name no prior version, clones are made of objects that
did not exist before, and any other entry names the version its object had. -/
structure History (base : O → Option EVersion) (log : PgLog O) : Prop extends log.Wf where
  base_le : ∀ o v, base o = some v → v ≤ log.tail ∧ v ≠ 0
  not_backlog : ∀ e ∈ log.log, ¬ e.isBacklog
  error_prior : ∀ e ∈ log.log, e.isError → e.priorVersion = 0
  clone_first : ∀ pre e post, log.log = pre ++ e :: post → e.isClone →
    base e.soid = none ∧ entriesOf e.soid pre = []
  prior_eq : ∀ pre e post, log.log = pre ++ e :: post → ¬ e.isError → ¬ e.isClone →
    e.priorVersion = (present base pre e.soid).getD 0

variable {pre post : List (PgLogEntry O)}

namespace History

variable {base : O → Option EVersion} {log : PgLog O}

section

variable (h : History base log)

include h

theorem version_ne_zero (he : e ∈ log.log) :
    e.version ≠ 0 := EVersion.pos_of_lt (h.tail_precedes e he).1

section

variable {o : O} {v : EVersion} (hsub : entries ⊆ log.log) (hv : present base entries o = some v)

include hsub hv

/-- What exists has a version. -/
theorem present_ne_zero : v ≠ 0 := by
  unfold present at hv
  split at hv
  · rename_i e he
    split at hv
    · cases hv
      exact h.version_ne_zero (hsub (newest_eq_some he).1)
    · cases hv
  · exact (h.base_le o v hv).2

/-- It was written by an entry, or before the tail. -/
theorem present_le : v ≤ log.head := by
  unfold present at hv
  split at hv
  · rename_i e he
    split at hv
    · cases hv
      exact (h.le_head e (hsub (newest_eq_some he).1)).1
    · cases hv
  · exact ((h.base_le o v hv).1).trans h.tail_le.1

end

/-- Entries come after what existed before them. -/
theorem present_lt (hlog : log.log = pre ++ e :: post) {o : O} {v : EVersion}
    (hv : present base pre o = some v) :
    v < e.version := by
  unfold present at hv
  split at hv
  · rename_i x hx
    split at hv
    · cases hv
      have hsorted := h.sorted
      rw [hlog, pairwise_append] at hsorted
      exact (hsorted.2.2 x (newest_eq_some hx).1 e mem_cons_self).1
    · cases hv
  · refine (h.base_le o v hv).1.trans_lt (h.tail_precedes e ?_).1
    rw [hlog]
    simp

/-- The version an entry of a history names is the one its object has. -/
theorem prior_or_created (hlog : log.log = pre ++ e :: post) (herr : e.isError = false) :
    (present base pre e.soid = none ∧ (e.priorVersion = 0 ∨ e.isClone)) ∨
      (present base pre e.soid = some e.priorVersion ∧ e.priorVersion ≠ 0 ∧ ¬ e.isClone) := by
  by_cases hclone : e.isClone
  · obtain ⟨hbase, hnone⟩ := h.clone_first pre e post hlog hclone
    rw [present_eq_base (newest_eq_none_of_entriesOf hnone), hbase]
    exact .inl ⟨rfl, .inr hclone⟩
  have hprior := h.prior_eq pre e post hlog (by simp [herr]) hclone
  cases hv : present base pre e.soid with
  | none => rw [hv] at hprior; exact .inl ⟨rfl, .inl hprior⟩
  | some v =>
    rw [hv] at hprior
    have hne : v ≠ 0 := h.present_ne_zero (by rw [hlog]; simp) hv
    exact .inr ⟨congrArg some hprior.symm, hprior ▸ hne, hclone⟩

end

end History

/-! ## The entries of an object after a point -/

section Object

variable {base : O → Option EVersion} {log : PgLog O} {kept div : List (PgLogEntry O)} {o : O}

/-- Where an entry of an object stands in the log. -/
theorem exists_split_of_entriesOf (h : entriesOf o entries = pre ++ e :: post) :
    ∃ a b, entries = a ++ e :: b ∧ entriesOf o a = pre ∧ entriesOf o b = post := by
  obtain ⟨a, b, rfl, ha, hb⟩ := filter_eq_append_iff.1 h
  obtain ⟨c, d, rfl, hc, -, hd⟩ := filter_eq_cons_iff.1 hb
  refine ⟨a ++ c, d, by simp, ?_, hd⟩
  rw [entriesOf_append, entriesOf, ha, entriesOf, filter_eq_nil_iff.2 hc, append_nil]

theorem present_of_entriesOf_nil {a : List (PgLogEntry O)} (h : entriesOf o a = []) :
    present base (kept ++ a) o = present base kept o := by
  rw [present_append, present_eq_base (newest_eq_none_of_entriesOf h)]

/-- The first entry of an object after a point names the version it had there. -/
theorem History.front_cases (h : History base log) (hlog : log.log = kept ++ div)
    {front : PgLogEntry O} {rest : List (PgLogEntry O)}
    (hentries : entriesOf o div = front :: rest) (herr : front.isError = false) :
    (present base kept o = none ∧ (front.priorVersion = 0 ∨ front.isClone)) ∨
      (present base kept o = some front.priorVersion ∧ front.priorVersion ≠ 0 ∧
        ¬ front.isClone) := by
  have hentries' : entriesOf o div = [] ++ front :: rest := hentries
  obtain ⟨a, b, rfl, ha, -⟩ := exists_split_of_entriesOf hentries'
  have hsoid : front.soid = o :=
    (mem_entriesOf.1 (hentries ▸ mem_cons_self .. : front ∈ entriesOf o _)).2
  have hsplit : log.log = (kept ++ a) ++ front :: b := by rw [hlog, append_assoc]
  have hcases := h.prior_or_created hsplit herr
  rwa [hsoid, present_of_entriesOf_nil ha] at hcases

/-- An object whose last entry is a delete does not exist. -/
theorem History.present_of_last_delete (hlast : (entriesOf o entries).getLast? = some e)
    (hdel : e.isDelete) :
    present base entries o = none := by
  have hnewest : newest entries o = some e := by
    obtain ⟨init, hinit⟩ := List.getLast?_eq_some_iff.1 hlast
    rw [newest, hinit, filter_append, filter_singleton, PgLogEntry.isError_of_isDelete hdel]
    simp
  rw [present, hnewest]
  simp [PgLogEntry.isUpdate_of_isDelete hdel]

/-- The loop over the entries of an object, as one condition. -/
theorem checkEntries_eq_some {last : Option EVersion} :
    checkEntries o last entries = some () ↔ (∀ e ∈ entries, e.soid = o) ∧
      (∀ v ∈ last, ∀ e ∈ entries.head?, e.priorVersion ≠ 0 → v < e.version ∧ e.priorVersion = v) ∧
      entries.IsChain fun x y =>
        y.priorVersion ≠ 0 → x.version < y.version ∧ y.priorVersion = x.version := by
  induction entries generalizing last with
  | nil => simp [checkEntries]
  | cons i entries ih =>
    have hchain : (i :: entries).IsChain (fun x y =>
        y.priorVersion ≠ 0 → x.version < y.version ∧ y.priorVersion = x.version) ↔
        (∀ e ∈ entries.head?, e.priorVersion ≠ 0 →
          i.version < e.version ∧ e.priorVersion = i.version) ∧ entries.IsChain fun x y =>
          y.priorVersion ≠ 0 → x.version < y.version ∧ y.priorVersion = x.version := by
      cases entries with
      | nil => simp
      | cons j entries => simp [isChain_cons_cons]
    unfold checkEntries
    rw [assert_bind_eq_some, hchain]
    cases last with
    | none =>
      simp only [bind_eq_bind, bind_some, ih, forall_mem_cons]
      simp only [mem_def, some.injEq, forall_eq', reduceCtorEq, false_implies,
        implies_true, true_and, and_assoc]
    | some last =>
      dsimp only
      by_cases hprior : i.priorVersion = 0
      · rw [if_neg (by simp [hprior])]
        simp only [bind_eq_bind, bind_some, ih, forall_mem_cons]
        simp [hprior, and_assoc]
      · rw [if_pos hprior, assert_bind_eq_some, assert_bind_eq_some, ih]
        simp [hprior, and_assoc, and_left_comm]

theorem isChain_iff_infix {α : Type*} {R : α → α → Prop} {l : List α} :
    l.IsChain R ↔ ∀ x y, [x, y] <:+: l → R x y := by
  constructor
  · intro h x y hsub
    have hpair := List.IsChain.infix h hsub
    exact isChain_pair.1 hpair
  · exact fun h => (isChain_isInfix l).imp fun x y => h x y

/-- **What breaks the loop over the entries of an object.**  In a history it stops only
at an entry with a prior version that directly follows an error. -/
theorem History.checkEntries_iff (h : History base log) (hlog : log.log = kept ++ div) :
    checkEntries o none (entriesOf o div) = some () ↔
      ∀ x y, [x, y] <:+: entriesOf o div → x.isError → y.priorVersion = 0 := by
  have hsoid : ∀ e ∈ entriesOf o div, e.soid = o := fun e he => (mem_entriesOf.1 he).2
  rw [checkEntries_eq_some, isChain_iff_infix]
  simp only [mem_def, reduceCtorEq, false_implies, implies_true, true_and]
  rw [and_iff_right hsoid]
  refine forall₂_congr fun x y => forall_congr' fun hsub => ?_
  obtain ⟨s, t, hst⟩ := hsub
  have hx : x ∈ entriesOf o div := by rw [← hst]; simp
  have hy : y ∈ entriesOf o div := by rw [← hst]; simp
  -- `x` is the last entry of the object before `y`
  have hsplit : entriesOf o div = (s ++ [x]) ++ y :: t := by rw [← hst]; simp
  obtain ⟨a, b, hdiv, ha, -⟩ := exists_split_of_entriesOf hsplit
  have hpre : entriesOf o (kept ++ a) = (entriesOf o kept ++ s) ++ x :: [] := by
    rw [entriesOf_append, ha, append_assoc]
  obtain ⟨a₁, a₂, hka, -, ha₂⟩ := exists_split_of_entriesOf hpre
  have hlogy : log.log = (kept ++ a) ++ y :: b := by rw [hlog, hdiv, append_assoc]
  have hlogx : log.log = a₁ ++ x :: (a₂ ++ y :: b) := by rw [hlogy, hka]; simp
  have hlt : x.version < y.version := by
    have hsorted := h.sorted
    rw [hlogy, pairwise_append] at hsorted
    exact (hsorted.2.2 x (by rw [hka]; simp) y mem_cons_self).1
  have hpresent : present base (kept ++ a) o =
      if x.isError then present base a₁ o else if x.isUpdate then some x.version else none := by
    rw [hka, append_cons, present_of_entriesOf_nil ha₂, present_concat, hsoid x hx]
    cases x.isError <;> simp
  have hmem : y ∈ log.log := by rw [hlogy]; simp
  by_cases herr : y.isError
  · simp [h.error_prior y hmem herr]
  by_cases hclone : y.isClone
  · -- a clone has no earlier entry
    have hnone := (h.clone_first (kept ++ a) y b hlogy hclone).2
    rw [hsoid y hy, hpre] at hnone
    simp at hnone
  have hprior := h.prior_eq (kept ++ a) y b hlogy herr hclone
  rw [hsoid y hy, hpresent] at hprior
  cases hxe : x.isError with
  | true =>
    rw [hxe] at hprior
    constructor
    · intro hR _
      by_contra hne
      cases hv : present base a₁ o with
      | none => rw [hv] at hprior; exact hne hprior
      | some v =>
        rw [hv] at hprior
        have hvx := h.present_lt hlogx hv
        exact absurd (hprior.symm.trans (hR hne).2) hvx.ne
    · intro hzero hne
      exact absurd (hzero rfl) hne
  | false =>
    rw [hxe] at hprior
    refine iff_of_true (fun hne => ⟨hlt, ?_⟩) fun h => absurd h (by decide)
    cases hu : x.isUpdate with
    | true => rw [hu] at hprior; simpa using hprior
    | false => rw [hu] at hprior; exact absurd (by simpa using hprior) hne

end Object

/-! ## Where two logs diverge -/

/-- The entries up to a version. -/
def PgLog.upTo (log : PgLog O) (d : EVersion) : List (PgLogEntry O) :=
  log.log.filter fun e => e.version ≤ d

/-- The entries after a version. -/
def PgLog.after (log : PgLog O) (d : EVersion) : List (PgLogEntry O) :=
  log.log.filter fun e => d < e.version

/-- The version is a point in the history of the log: it cuts the entries in two by
its number as well. -/
def PgLog.Cuts (log : PgLog O) (d : EVersion) : Prop :=
  ∀ e ∈ log.log, (e.version ≤ d ∧ e.version.version ≤ d.version) ∨ d.Precedes e.version

/-- The logs agree up to `d` and diverge there: the tails and `d` are points of both
histories, both logs have the same entries between the tails and `d` and say the same
about the objects at `d`, and they share no entry after it.  The head of `olog` is that of
its newest entry. -/
structure DivergeAt (base obase : O → Option EVersion) (log olog : PgLog O) (d : EVersion) :
    Prop where
  cuts : log.Cuts d
  ocuts : olog.Cuts d
  tail_cuts : olog.Cuts log.tail
  otail_cuts : log.Cuts olog.tail
  tail_le : log.tail ≤ d ∧ log.tail.version ≤ d.version
  otail_le : olog.tail ≤ d ∧ olog.tail.version ≤ d.version
  le_head : d ≤ log.head
  le_ohead : d ≤ olog.head
  ohead : d = olog.head ∨ ∃ e ∈ olog.log, e.version = olog.head
  shared : ∀ e : PgLogEntry O, log.tail < e.version → olog.tail < e.version → e.version ≤ d →
    (e ∈ log.log ↔ e ∈ olog.log)
  present_eq : ∀ o, present base (log.upTo d) o = present obase (olog.upTo d) o
  apart : ∀ e ∈ olog.log, d < e.version → e ∉ log.log

/-- What `olog` has after `d` is newer than anything in `log`. -/
def NewerAfter (log olog : PgLog O) (d : EVersion) : Prop :=
  ∀ e ∈ olog.log, d < e.version → log.head < e.version

section Cuts

variable {base obase : O → Option EVersion} {log olog : PgLog O} {d : EVersion}

section

omit [LinearOrder O]

theorem PgLog.mem_upTo : e ∈ log.upTo d ↔ e ∈ log.log ∧ e.version ≤ d := by
  simp [upTo]

theorem PgLog.upTo_sublist (log : PgLog O) (d : EVersion) : (log.upTo d).Sublist log.log :=
  filter_sublist

theorem PgLog.mem_after : e ∈ log.after d ↔ e ∈ log.log ∧ d < e.version := by
  simp [after]

theorem PgLog.Wf.downClosed_le (h : log.Wf) (v : EVersion) :
    DownClosed (fun e : PgLogEntry O => decide (e.version ≤ v)) log.log :=
  h.sorted.imp fun {a b} hab hb => by
    simp only [decide_eq_true_eq] at hb ⊢
    exact hab.1.le.trans hb

theorem filter_not_le (l : List (PgLogEntry O)) (v : EVersion) :
    (l.filter fun e => !decide (e.version ≤ v)) = l.filter fun e => v < e.version :=
  filter_congr fun e _ => by rw [← decide_not, decide_eq_decide, not_le]

theorem PgLog.Wf.upTo_append_after (h : log.Wf) (d : EVersion) :
    log.upTo d ++ log.after d = log.log := by
  rw [after, ← filter_not_le]
  exact filter_append_filter_not (h.downClosed_le d)

/-- Logs in order with the same entries are the same. -/
theorem eq_of_sorted_of_mem_iff {a b : List (PgLogEntry O)}
    (ha : a.Pairwise fun x y => x.version.Precedes y.version)
    (hb : b.Pairwise fun x y => x.version.Precedes y.version) (h : ∀ e, e ∈ a ↔ e ∈ b) : a = b := by
  have : Std.Irrefl fun x y : PgLogEntry O => x.version.Precedes y.version :=
    ⟨fun x hx => lt_irrefl _ hx.1⟩
  have : Std.Antisymm fun x y : PgLogEntry O => x.version.Precedes y.version :=
    ⟨fun x y hxy hyx => absurd hxy.1 hyx.1.not_gt⟩
  exact Pairwise.eq_of_mem_iff ha hb h

end

section

variable {cut : EVersion} (h : log.Wf)
  (hcut : ∀ e ∈ log.log, cut.version < e.version.version ↔ d < e.version)

include h hcut

omit [LinearOrder O] in
/-- A cut by number that agrees with the cut by version at `d`. -/
theorem PgLog.divergent_eq_after : log.divergent cut = log.after d := by
  rw [divergent, rtakeWhile_eq_filter (h.downClosed _), after]
  exact filter_congr fun e he => by simp [hcut e he]

omit [LinearOrder O] in
theorem PgLog.kept_eq_upTo : log.kept cut = log.upTo d := by
  have hwhole := log.kept_append_divergent cut
  rw [divergent_eq_after h hcut, ← h.upTo_append_after d] at hwhole
  exact append_cancel_right hwhole

end

omit [LinearOrder O] in
theorem PgLog.Cuts.lt_iff (h : log.Cuts d) (he : e ∈ log.log) :
    d.version < e.version.version ↔ d < e.version := by
  rcases h e he with ⟨hle, hnum⟩ | hlt
  · exact iff_of_false hnum.not_gt hle.not_gt
  · exact iff_of_true hlt.2 hlt.1

omit [LinearOrder O] in
theorem PGLog.mem_taken (howf : olog.Wf) :
    e ∈ taken log olog ↔ olog.tail < log.tail ∧ e ∈ olog.log ∧ e.version ≤ log.tail := by
  unfold taken
  split <;> rename_i htail
  · rw [takeWhile_eq_filter (howf.downClosed_le _)]
    simp [htail]
  · simp [htail]

variable (hdiv : DivergeAt base obase log olog d)
include hdiv

section

variable (hnewer : NewerAfter log olog d)

include hnewer

/-- What `olog` has after the divergence point is what the log has not reached. -/
theorem DivergeAt.head_lt_iff (he : e ∈ olog.log) : log.head < e.version ↔ d < e.version :=
  ⟨hdiv.le_head.trans_lt, hnewer e he⟩

theorem DivergeAt.eq_head (hle : olog.head ≤ log.head) : d = olog.head := by
  rcases hdiv.ohead with rfl | ⟨e, he, hversion⟩
  · rfl
  · by_contra hne
    have hlt := hnewer e he (hversion ▸ hdiv.le_ohead.lt_of_ne hne)
    exact absurd hle (hversion ▸ hlt).not_ge

theorem DivergeAt.after_eq_nil (hwf : olog.Wf) (hle : olog.head ≤ log.head) :
    olog.after d = [] := by
  refine eq_nil_iff_forall_not_mem.2 fun e he => ?_
  obtain ⟨hmem, hd⟩ := mem_after.1 he
  rw [hdiv.eq_head hnewer hle] at hd
  exact absurd (hwf.le_head e hmem).1 hd.not_ge

end

/-- **The entries that are kept are those of `olog`, after the older tail.** -/
theorem DivergeAt.taken_append_upTo (hwf : log.Wf) (howf : olog.Wf) :
    taken log olog ++ log.upTo d = log.upTo olog.tail ++ olog.upTo d := by
  have hsorted := fun v => hwf.sorted.sublist (log.upTo_sublist v)
  have hosorted := howf.sorted.sublist (olog.upTo_sublist d)
  refine eq_of_sorted_of_mem_iff ?_ ?_ ?_
  · refine pairwise_append.2 ⟨?_, hsorted d, fun x hx y hy => ?_⟩
    · unfold taken
      split
      · exact howf.sorted.sublist (takeWhile_sublist _)
      · exact Pairwise.nil
    · obtain ⟨-, hmem, hle⟩ := (mem_taken howf).1 hx
      have hy := hwf.tail_precedes y (mem_upTo.1 hy).1
      rcases hdiv.tail_cuts x hmem with ⟨-, hnum⟩ | hlt
      · exact ⟨hle.trans_lt hy.1, hnum.trans_lt hy.2⟩
      · exact absurd hle hlt.1.not_ge
  · refine pairwise_append.2 ⟨hsorted olog.tail, hosorted, fun x hx y hy => ?_⟩
    obtain ⟨hmem, hle⟩ := mem_upTo.1 hx
    have hy := howf.tail_precedes y (mem_upTo.1 hy).1
    rcases hdiv.otail_cuts x hmem with ⟨-, hnum⟩ | hlt
    · exact ⟨hle.trans_lt hy.1, hnum.trans_lt hy.2⟩
    · exact absurd hle hlt.1.not_ge
  · intro e
    simp only [mem_append, mem_upTo, mem_taken howf]
    constructor
    · rintro (⟨-, hmem, hle⟩ | ⟨hmem, hle⟩)
      · exact .inr ⟨hmem, hle.trans hdiv.tail_le.1⟩
      · rcases le_or_gt e.version olog.tail with hle' | hlt
        · exact .inl ⟨hmem, hle'⟩
        · exact .inr ⟨(hdiv.shared e (hwf.tail_precedes e hmem).1 hlt hle).1 hmem, hle⟩
    · rintro (⟨hmem, hle⟩ | ⟨hmem, hle⟩)
      · exact .inr ⟨hmem, hle.trans hdiv.otail_le.1⟩
      · have hlt := (howf.tail_precedes e hmem).1
        rcases le_or_gt e.version log.tail with hle' | hlt'
        · exact .inl ⟨hlt.trans_le hle', hmem, hle'⟩
        · exact .inr ⟨(hdiv.shared e hlt' hlt hle).2 hmem, hle⟩

/-! ## The cut -/

/-- What a cut has to satisfy to throw out exactly the divergent entries. -/
structure GoodCut (log olog : PgLog O) (d cut : EVersion) : Prop where
  lt_iff : ∀ e ∈ log.log, cut.version < e.version.version ↔ d < e.version
  le : cut ≤ d ∧ cut.version ≤ d.version
  tail_le : log.tail ≤ cut
  otail_le : olog.tail ≤ cut
  tail_num_le : olog.tail < log.tail → log.tail.version ≤ cut.version

section

variable (hnewer : NewerAfter log olog d)

include hnewer

theorem DivergeAt.goodCut_head (hle : olog.head ≤ log.head) : GoodCut log olog d olog.head := by
  have hd := hdiv.eq_head hnewer hle
  subst hd
  exact ⟨fun e he => hdiv.cuts.lt_iff he, ⟨le_rfl, le_rfl⟩, hdiv.tail_le.1, hdiv.otail_le.1,
    fun _ => hdiv.tail_le.2⟩

/-- The entries `merge_log` takes for new. -/
theorem DivergeAt.new_eq_after (howf : olog.Wf) :
    (cutPoint log.head log.tail olog).2 = olog.after d := by
  unfold cutPoint
  rw [rtakeWhile_eq_filter, PgLog.after]
  · exact filter_congr fun e he => by simp [hdiv.head_lt_iff hnewer he]
  · exact howf.sorted.imp fun {a b} hab hb => by
      simp only [Bool.not_eq_true', decide_eq_false_iff_not, not_lt] at hb ⊢
      exact hab.1.le.trans hb

theorem DivergeAt.found_eq (howf : olog.Wf) :
    olog.log.rdropWhile (fun e => decide (log.head < e.version)) = olog.upTo d := by
  rw [rdropWhile_eq_filter]
  · refine filter_congr fun e he => ?_
    rw [← decide_not, decide_eq_decide, hdiv.head_lt_iff hnewer he, not_lt]
  · exact howf.sorted.imp fun {a b} hab hb => by
      simp only [Bool.not_eq_true', decide_eq_false_iff_not, not_lt] at hb ⊢
      exact hab.1.le.trans hb

/-- **The cut point is good.** -/
theorem DivergeAt.goodCut_cutPoint (hwf : log.Wf) (howf : olog.Wf) :
    GoodCut log olog d (cutPoint log.head log.tail olog).1 := by
  have hge := le_cutPoint log.head log.tail olog
  have hpoint : (cutPoint log.head log.tail olog).1 = (olog.upTo d).getLast?.elim
      (max olog.tail log.tail) fun f => max (max olog.tail log.tail) f.version := by
    rw [← hdiv.found_eq hnewer howf, cutPoint]
    cases (olog.log.rdropWhile fun e => log.head < e.version).getLast? <;> rfl
  generalize (cutPoint log.head log.tail olog).1 = cut at hge hpoint ⊢
  have htail : log.tail ≤ cut := (le_max_right _ _).trans hge
  have hotail : olog.tail ≤ cut := (le_max_left _ _).trans hge
  -- the cut is one of the tails, or the last shared entry of `olog`
  have hcases : (∀ e ∈ olog.upTo d, e.version ≤ cut) ∧ (cut = olog.tail ∨ cut = log.tail ∨
      ∃ f ∈ olog.upTo d, (∀ e ∈ olog.upTo d, e.version.version ≤ f.version.version) ∧
        cut = f.version) := by
    cases hlast : (olog.upTo d).getLast? with
    | none =>
      rw [hlast] at hpoint
      rw [List.getLast?_eq_none_iff] at hlast
      rw [hlast]
      refine ⟨fun e he => absurd he not_mem_nil, ?_⟩
      rcases max_choice olog.tail log.tail with h | h
      · exact .inl (hpoint.trans h)
      · exact .inr (.inl (hpoint.trans h))
    | some f =>
      rw [hlast] at hpoint
      obtain ⟨init, hinit⟩ := List.getLast?_eq_some_iff.1 hlast
      have hsorted := howf.sorted.sublist (olog.upTo_sublist d)
      rw [hinit, pairwise_append] at hsorted
      have hle : ∀ e ∈ olog.upTo d, e.version ≤ f.version ∧
          e.version.version ≤ f.version.version := by
        intro e he
        rw [hinit, mem_append, mem_singleton] at he
        rcases he with he | rfl
        · have := hsorted.2.2 e he f (mem_singleton_self f)
          exact ⟨this.1.le, this.2.le⟩
        · exact ⟨le_rfl, le_rfl⟩
      refine ⟨fun e he => (hle e he).1.trans (hpoint ▸ le_max_right _ _), ?_⟩
      rcases max_choice (max olog.tail log.tail) f.version with h | h
      · rcases max_choice olog.tail log.tail with h' | h'
        · exact .inl (hpoint.trans (h.trans h'))
        · exact .inr (.inl (hpoint.trans (h.trans h')))
      · exact .inr (.inr ⟨f, mem_of_mem_getLast? hlast, fun e he => (hle e he).2, hpoint.trans h⟩)
  obtain ⟨hupTo, hcases⟩ := hcases
  have hle : cut ≤ d ∧ cut.version ≤ d.version := by
    rcases hcases with rfl | rfl | ⟨f, hf, -, rfl⟩
    · exact hdiv.otail_le
    · exact hdiv.tail_le
    · obtain ⟨hmem, hfd⟩ := mem_upTo.1 hf
      exact (hdiv.ocuts f hmem).resolve_right fun h => absurd hfd h.1.not_ge
  refine ⟨fun e he => ⟨fun hnum => ?_, fun hd => ?_⟩, hle, htail, hotail, fun hlt' => ?_⟩
  · -- an entry up to `d` is older than the tail of `olog`, or in `olog`
    by_contra hd
    have hed := not_lt.1 hd
    have het := (hwf.tail_precedes e he).1
    rcases le_or_gt e.version olog.tail with hle' | hgt
    · have hnum' := ((hdiv.otail_cuts e he).resolve_right fun h => absurd hle' h.1.not_ge).2
      rcases hcases with rfl | rfl | ⟨f, hf, -, rfl⟩
      · omega
      · exact absurd (het.trans_le hle') hotail.not_gt
      · have := (howf.tail_precedes f (mem_upTo.1 hf).1).2
        omega
    · have hmem : e ∈ olog.upTo d := mem_upTo.2 ⟨(hdiv.shared e het hgt hed).1 he, hed⟩
      rcases hcases with rfl | rfl | ⟨f, -, hmax, rfl⟩
      · exact absurd (hupTo e hmem) hgt.not_ge
      · exact absurd (hupTo e hmem) het.not_ge
      · have := hmax e hmem
        omega
  · have := (hdiv.cuts.lt_iff he).2 hd
    omega
  · rcases hcases with rfl | rfl | ⟨f, hf, -, rfl⟩
    · exact absurd htail hlt'.not_ge
    · exact le_rfl
    · rcases hdiv.tail_cuts f (mem_upTo.1 hf).1 with ⟨hft, -⟩ | h
      · exact (congrArg EVersion.version (le_antisymm htail hft)).le
      · exact h.2.le

end

end Cuts

end Ceph.Osd
