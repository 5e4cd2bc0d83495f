import Mathlib.Data.Finset.Union
import Ceph.Lib.Loop
import Ceph.Lib.SortedList

/-!
# Past intervals

`PastIntervals` of `osd/osd_types.h` and `osd/osd_types.cc`: the two representations of
the intervals in which a placement group may have been written, and the set of OSDs that
is built from either of them before peering.

The compact representation drops an interval when a later one has an acting set
contained in its own.  The verdicts agree for all states of the OSDs exactly if the acting
sets of the intervals that are dropped are covered by the ones that are kept
(`compact_agrees_iff`).

Printing and encoding are left out, and so are the up sets and primaries of the
intervals, which are not looked at here.
-/

namespace Ceph.Osd

open List

/-! ## Intervals -/

/-- `pg_shard_t`, with `shard_id_t::NO_SHARD` for the shards of replicated pools. -/
structure PgShard where
  osd : ℤ
  shard : BitVec 8
  deriving DecidableEq

/-- `CRUSH_ITEM_NONE` -/
def crushItemNone : ℤ := 0x7fffffff

/-- The shards of an acting or up set. -/
def shardSet (ecPool : Bool) (osds : List ℤ) : Finset PgShard :=
  (osds.zipIdx.filterMap fun (osd, i) =>
    if osd = crushItemNone then none
    else some ⟨osd, if ecPool then BitVec.ofNat 8 i else -1#8⟩).toFinset

/-- `pg_interval_t` -/
structure PgInterval where
  first : ℕ
  last : ℕ
  acting : List ℤ
  maybeWentRw : Bool
  deriving DecidableEq

/-! ## The classic representation -/

/-- `interval_map[interval.first] = interval`, in the order of the map. -/
def classicAdd (interval : PgInterval) : List PgInterval → List PgInterval
  | [] => [interval]
  | i :: intervals =>
    if interval.first < i.first then interval :: i :: intervals
    else if interval.first = i.first then interval :: intervals
    else i :: classicAdd interval intervals

/-- `pi_simple_rep`, after the intervals are added. -/
def classicRep (intervals : List PgInterval) : List PgInterval :=
  intervals.foldl (fun rep interval => classicAdd interval rep) []

/-- `pi_simple_rep::get_all_participants` -/
def classicParticipants (ecPool : Bool) (rep : List PgInterval) : Finset PgShard :=
  (rep.filter (·.maybeWentRw)).toFinset.biUnion fun i => shardSet ecPool i.acting

/-- The calls `pi_simple_rep::iterate_mayberw_back_to` makes, in order. -/
def classicBackTo (ecPool : Bool) (les : ℕ) (rep : List PgInterval) : List (ℕ × Finset PgShard) :=
  ((rep.reverse.filter (·.maybeWentRw)).takeWhile fun i => !decide (i.last < les)).map fun i =>
    (i.first, shardSet ecPool i.acting)

/-! ## The compact representation -/

/-- `compact_interval_t` -/
structure CompactInterval where
  first : ℕ
  last : ℕ
  acting : Finset PgShard

/-- `supersedes` -/
def CompactInterval.supersedes (i other : CompactInterval) : Bool := i.acting ⊆ other.acting

/-- `pi_compact_rep` -/
structure CompactRep where
  first : ℕ := 0
  last : ℕ := 0
  allParticipants : Finset PgShard := ∅
  intervals : List CompactInterval := []

/-- `pi_compact_rep::add_interval` -/
def CompactRep.addInterval (ecPool : Bool) (rep : CompactRep) (interval : PgInterval) :
    Option CompactRep := do
  let first := if rep.first = 0 then interval.first else rep.first
  assert (rep.last < interval.last)
  let acting := shardSet ecPool interval.acting
  let allParticipants := rep.allParticipants ∪ acting
  if !interval.maybeWentRw then
    some { rep with first := first, last := interval.last, allParticipants := allParticipants }
  else
    let plast : CompactInterval := ⟨interval.first, interval.last, acting⟩
    some
      { first := first
        last := interval.last
        allParticipants := allParticipants
        intervals := (rep.intervals.filter fun cur => !plast.supersedes cur) ++ [plast] }

/-- `pi_compact_rep`, after the intervals are added. -/
def compactRep (ecPool : Bool) (intervals : List PgInterval) : Option CompactRep :=
  intervals.foldlM (CompactRep.addInterval ecPool) {}

/-- The calls `pi_compact_rep::iterate_mayberw_back_to` makes, in order. -/
def CompactRep.backTo (les : ℕ) (rep : CompactRep) : List (ℕ × Finset PgShard) :=
  (rep.intervals.reverse.takeWhile fun i => !decide (i.last < les)).map fun i =>
    (i.first, i.acting)

/-! ## The prior set -/

/-- `osd_state_t` -/
inductive OsdState where
  | up
  | down
  | dne
  | lost
  deriving DecidableEq

/-- What the map says of an OSD: it is up, it does not exist, or it is down, with
`lost_at`. -/
inductive OsdStatus where
  | up
  | dne
  | notUp (lostAt : ℕ)

open OsdStatus

/-- The state of an OSD, for an interval that starts at `start`. -/
def OsdStatus.state (start : ℕ) : OsdStatus → OsdState
  | .up => .up
  | .dne => .dne
  | .notUp lostAt => if start < lostAt then .lost else .down

/-- `lost_at`, which stays zero for an OSD that does not exist. -/
def OsdStatus.lostAt : OsdStatus → ℕ
  | .notUp lostAt => lostAt
  | _ => 0

/-- `PriorSet`.  `blockedBy` is the map from OSDs to `lost_at`, as a set of pairs: the
second component is determined by the first. -/
structure PriorSet where
  probe : Finset PgShard
  down : Finset ℤ
  blockedBy : Finset (ℤ × ℕ) := ∅
  pgDown : Bool := false

open PriorSet

section Prior

variable (status : ℤ → OsdStatus) (pcontdec : Finset PgShard → Bool)

/-- The OSDs of an interval that count as up. -/
def upNow (start : ℕ) (acting : Finset PgShard) : Finset PgShard :=
  acting.filter fun so => (status so.osd).state start = .up ∨ (status so.osd).state start = .lost

/-- Those that are down. -/
def downNow (start : ℕ) (acting : Finset PgShard) : Finset PgShard :=
  acting.filter fun so => (status so.osd).state start = .down

/-- What is done for an interval. -/
def PriorSet.consider (prior : PriorSet) (interval : ℕ × Finset PgShard) : PriorSet :=
  let upNow := upNow status interval.1 interval.2
  let downNow := downNow status interval.1 interval.2
  let candidateBlockedBy := downNow.image fun so => (so.osd, (status so.osd).lostAt)
  if !pcontdec upNow ∧ downNow ≠ ∅ then
    { prior with pgDown := true, blockedBy := prior.blockedBy ∪ candidateBlockedBy }
  else prior

/-- The constructor of `PriorSet`, from the shards and the intervals of a representation. -/
def priorSet (ecPool : Bool) (allProbe : Finset PgShard) (backTo : List (ℕ × Finset PgShard))
    (up acting : List ℤ) : PriorSet :=
  let isUp := fun so : PgShard => (status so.osd).state 0 = .up
  backTo.foldl (consider status pcontdec)
    { probe := shardSet ecPool acting ∪ shardSet ecPool up ∪ allProbe.filter fun so => isUp so
      down := (allProbe.filter fun so => ¬ isUp so).image (·.osd) }

/-- The prior set from the classic representation. -/
def classicPrior (ecPool : Bool) (les : ℕ) (rep : List PgInterval) (up acting : List ℤ) :
    PriorSet :=
  priorSet status pcontdec ecPool (classicParticipants ecPool rep) (classicBackTo ecPool les rep)
    up acting

/-- The prior set from the compact representation. -/
def compactPrior (ecPool : Bool) (les : ℕ) (rep : CompactRep) (up acting : List ℤ) : PriorSet :=
  priorSet status pcontdec ecPool rep.allParticipants (rep.backTo les) up acting

end Prior

/-! ## What the prior set says -/

section Verdict

variable {status : ℤ → OsdStatus} {pcontdec : Finset PgShard → Bool}

/-- The interval keeps the placement group down: an OSD is down that may have data, and
the others are not enough. -/
structure Blocks (status : ℤ → OsdStatus) (pcontdec : Finset PgShard → Bool) (start : ℕ)
    (acting : Finset PgShard) : Prop where
  not_enough : pcontdec (upNow status start acting) = false
  some_down : (downNow status start acting).Nonempty

theorem PriorSet.pgDown_foldl (backTo : List (ℕ × Finset PgShard)) (prior : PriorSet) :
    (backTo.foldl (consider status pcontdec) prior).pgDown = true ↔
      prior.pgDown = true ∨ ∃ i ∈ backTo, Blocks status pcontdec i.1 i.2 := by
  induction backTo generalizing prior with
  | nil => simp
  | cons i backTo ih =>
    rw [foldl_cons, ih, exists_mem_cons_iff, ← or_assoc]
    refine or_congr_left ?_
    unfold consider
    dsimp only
    split <;> rename_i h
    · refine iff_of_true rfl (.inr ⟨by simpa using h.1, Finset.nonempty_iff_ne_empty.2 h.2⟩)
    · refine ⟨.inl, fun hor => hor.resolve_right fun hb => h ⟨?_, ?_⟩⟩
      · simpa using hb.not_enough
      · exact Finset.nonempty_iff_ne_empty.1 hb.some_down

theorem PriorSet.probe_foldl (backTo : List (ℕ × Finset PgShard)) (prior : PriorSet) :
    (backTo.foldl (consider status pcontdec) prior).probe = prior.probe := by
  induction backTo generalizing prior with
  | nil => rfl
  | cons i backTo ih =>
    rw [foldl_cons, ih]
    unfold consider
    dsimp only
    split <;> rfl

theorem pgDown_priorSet {ecPool : Bool} {allProbe : Finset PgShard}
    {backTo : List (ℕ × Finset PgShard)} {up acting : List ℤ} :
    (priorSet status pcontdec ecPool allProbe backTo up acting).pgDown = true ↔
      ∃ i ∈ backTo, Blocks status pcontdec i.1 i.2 := by
  unfold priorSet
  rw [pgDown_foldl]
  simp

theorem probe_priorSet_mono {ecPool : Bool} {allProbe allProbe' : Finset PgShard}
    {backTo backTo' : List (ℕ × Finset PgShard)} {up acting : List ℤ} (h : allProbe ⊆ allProbe') :
    (priorSet status pcontdec ecPool allProbe backTo up acting).probe ⊆
      (priorSet status pcontdec ecPool allProbe' backTo' up acting).probe := by
  unfold priorSet
  rw [probe_foldl, probe_foldl]
  exact Finset.union_subset_union_right (Finset.filter_subset_filter _ h)

end Verdict

/-! ## What the representations hold -/

/-- The intervals come one after the other. -/
structure Increasing (intervals : List PgInterval) : Prop where
  first_le : ∀ i ∈ intervals, i.first ≤ i.last
  sorted : intervals.Pairwise fun i j => i.last < j.first

variable {rep : CompactRep}

section Representations

variable {ecPool : Bool} {intervals : List PgInterval}

theorem Increasing.first_lt (h : Increasing intervals) :
    intervals.Pairwise fun i j => i.first < j.first ∧ i.last < j.last :=
  h.sorted.imp_of_mem fun {i j} hi hj hij =>
    ⟨(h.first_le i hi).trans_lt hij, hij.trans_le (h.first_le j hj)⟩

/-- Two intervals of the list, in the order of their first epochs. -/
theorem Increasing.last_le (h : Increasing intervals) {i j : PgInterval} (hi : i ∈ intervals)
    (hj : j ∈ intervals) (hij : i.first ≤ j.first) : i.last ≤ j.last := by
  have hpair : intervals.Pairwise fun i j =>
      (i.first < j.first ∧ i.last < j.last) ∨ (j.first < i.first ∧ j.last < i.last) :=
    h.first_lt.imp .inl
  have : Std.Symm fun i j : PgInterval =>
      (i.first < j.first ∧ i.last < j.last) ∨ (j.first < i.first ∧ j.last < i.last) :=
    ⟨fun _ _ h => h.symm⟩
  by_cases heq : i = j
  · rw [heq]
  · rcases hpair.forall hi hj heq with h' | h'
    · exact h'.2.le
    · exact absurd h'.1 hij.not_gt

theorem classicAdd_eq {interval : PgInterval} {rep : List PgInterval}
    (h : ∀ i ∈ rep, i.first < interval.first) : classicAdd interval rep = rep ++ [interval] := by
  induction rep with
  | nil => rfl
  | cons i rep ih =>
    have hi := h i mem_cons_self
    unfold classicAdd
    rw [if_neg hi.not_gt, if_neg hi.ne', ih fun j hj => h j (mem_cons_of_mem _ hj)]
    rfl

theorem classicRep_eq (h : Increasing intervals) : classicRep intervals = intervals := by
  refine Loop.foldl_invariant (fun pre rep => rep = pre) rfl ?_
  rintro pre i post rep hsplit rfl
  refine classicAdd_eq fun j hj => ?_
  have hsorted := h.first_lt
  rw [hsplit, pairwise_append] at hsorted
  exact (hsorted.2.2 j hj i mem_cons_self).1

variable {c : ℕ × Finset PgShard}

theorem mem_classicBackTo (h : Increasing intervals) {les : ℕ} :
    c ∈ classicBackTo ecPool les (classicRep intervals) ↔
      ∃ i ∈ intervals, i.maybeWentRw ∧ les ≤ i.last ∧ c = (i.first, shardSet ecPool i.acting) := by
  have hdown : SortedList.DownClosed (fun i : PgInterval => !decide (i.last < les))
      (intervals.reverse.filter (·.maybeWentRw)) := by
    refine List.Pairwise.filter _ (pairwise_reverse.2 (h.first_lt.imp fun {i j} hij hle => ?_))
    simp only [Bool.not_eq_true', decide_eq_false_iff_not, not_lt] at hle ⊢
    exact hle.trans hij.2.le
  unfold classicBackTo
  rw [classicRep_eq h, SortedList.takeWhile_eq_filter hdown]
  simp only [mem_map, mem_filter, mem_reverse, Bool.not_eq_true', decide_eq_false_iff_not, not_lt]
  constructor
  · rintro ⟨i, ⟨⟨hi, hrw⟩, hles⟩, rfl⟩
    exact ⟨i, hi, hrw, hles, rfl⟩
  · rintro ⟨i, hi, hrw, hles, rfl⟩
    exact ⟨i, ⟨⟨hi, hrw⟩, hles⟩, rfl⟩

/-- No later interval in which there may have been writes has an acting set contained in
that of `i`. -/
def NotSuperseded (ecPool : Bool) (intervals : List PgInterval) (i : PgInterval) : Prop :=
  ∀ j ∈ intervals, j.maybeWentRw → i.first < j.first →
    ¬ shardSet ecPool j.acting ⊆ shardSet ecPool i.acting

/-- What an interval is in the compact representation. -/
def PgInterval.compact (ecPool : Bool) (i : PgInterval) : CompactInterval :=
  ⟨i.first, i.last, shardSet ecPool i.acting⟩

/-- What the compact representation holds. -/
structure Holds (ecPool : Bool) (intervals : List PgInterval) (rep : CompactRep) : Prop where
  last_le : ∀ n, (∀ i ∈ intervals, i.last < n) → 0 < n → rep.last < n
  participants : ∀ i ∈ intervals, shardSet ecPool i.acting ⊆ rep.allParticipants
  sublist : rep.intervals.Sublist (intervals.map (PgInterval.compact ecPool))
  mem_iff : ∀ c, c ∈ rep.intervals ↔ ∃ i ∈ intervals, i.maybeWentRw ∧
    NotSuperseded ecPool intervals i ∧ c = i.compact ecPool

variable {pre : List PgInterval}

theorem notSuperseded_concat {x i : PgInterval} (hlt : i.first < x.first) :
    NotSuperseded ecPool (pre ++ [x]) i ↔ NotSuperseded ecPool pre i ∧
      ¬ (x.maybeWentRw ∧ shardSet ecPool x.acting ⊆ shardSet ecPool i.acting) := by
  unfold NotSuperseded
  simp only [mem_append, mem_singleton]
  constructor
  · intro h
    exact ⟨fun j hj => h j (.inl hj), fun hx => h x (.inr rfl) hx.1 hlt hx.2⟩
  · rintro ⟨hpre, hx⟩ j (hj | rfl) hrw hij hsub
    · exact hpre j hj hrw hij hsub
    · exact hx ⟨hrw, hsub⟩

theorem Holds.addInterval {x : PgInterval} (h : Holds ecPool pre rep)
    (hlt : ∀ i ∈ pre, i.first < x.first ∧ i.last < x.last) (hpos : 0 < x.last) :
    ∃ rep', rep.addInterval ecPool x = some rep' ∧ Holds ecPool (pre ++ [x]) rep' := by
  have hlast := h.last_le x.last (fun i hi => (hlt i hi).2) hpos
  have hpart : ∀ i ∈ pre ++ [x], shardSet ecPool i.acting ⊆
      rep.allParticipants ∪ shardSet ecPool x.acting := by
    intro i hi
    rcases mem_append.1 hi with hi | hi
    · exact (h.participants i hi).trans Finset.subset_union_left
    · rw [mem_singleton.1 hi]
      exact Finset.subset_union_right
  have hself : NotSuperseded ecPool (pre ++ [x]) x := by
    intro j hj _ hlt'
    rcases mem_append.1 hj with hj | hj
    · exact absurd hlt' (hlt j hj).1.not_gt
    · exact absurd hlt' (by rw [mem_singleton.1 hj]; exact lt_irrefl _)
  unfold CompactRep.addInterval
  rw [assert_bind hlast]
  cases hrw : x.maybeWentRw with
  | false =>
    refine ⟨_, rfl, ?_, hpart, ?_, fun c => ?_⟩
    · intro n hn _
      exact hn x (mem_append_right _ (mem_singleton_self x))
    · rw [map_append]
      exact h.sublist.trans (sublist_append_left _ _)
    · rw [h.mem_iff]
      constructor
      · rintro ⟨i, hi, hirw, hns, rfl⟩
        refine ⟨i, mem_append_left _ hi, hirw, ?_, rfl⟩
        exact (notSuperseded_concat (hlt i hi).1).2 ⟨hns, by simp [hrw]⟩
      · rintro ⟨i, hi, hirw, hns, rfl⟩
        rcases mem_append.1 hi with hi | hi
        · exact ⟨i, hi, hirw, ((notSuperseded_concat (hlt i hi).1).1 hns).1, rfl⟩
        · rw [mem_singleton.1 hi, hrw] at hirw
          cases hirw
  | true =>
    refine ⟨_, rfl, ?_, hpart, ?_, fun c => ?_⟩
    · intro n hn _
      exact hn x (mem_append_right _ (mem_singleton_self x))
    · rw [map_append]
      exact ((filter_sublist ..).trans h.sublist).append_right _
    · rw [mem_append, mem_filter, mem_singleton, h.mem_iff]
      constructor
      · rintro (⟨⟨i, hi, hirw, hns, rfl⟩, hsup⟩ | rfl)
        · refine ⟨i, mem_append_left _ hi, hirw, ?_, rfl⟩
          refine (notSuperseded_concat (hlt i hi).1).2 ⟨hns, fun hx => ?_⟩
          simp only [CompactInterval.supersedes, Bool.not_eq_true', decide_eq_false_iff_not] at hsup
          exact hsup hx.2
        · exact ⟨x, mem_append_right _ (mem_singleton_self x), hrw, hself, rfl⟩
      · rintro ⟨i, hi, hirw, hns, rfl⟩
        rcases mem_append.1 hi with hi | hi
        · obtain ⟨hpre, hx⟩ := (notSuperseded_concat (hlt i hi).1).1 hns
          refine .inl ⟨⟨i, hi, hirw, hpre, rfl⟩, ?_⟩
          simp only [CompactInterval.supersedes, Bool.not_eq_true', decide_eq_false_iff_not]
          exact fun hsub => hx ⟨hrw, hsub⟩
        · rw [mem_singleton.1 hi]
          exact .inr rfl

theorem holds_empty : Holds ecPool [] {} :=
  ⟨fun _ _ h => h, nofun, List.Sublist.refl _, fun _ => by simp⟩

/-- The intervals can be added if none ends at epoch zero. -/
theorem exists_compactRep (ecPool : Bool) (h : Increasing intervals)
    (hpos : ∀ i ∈ intervals, 0 < i.last) :
    ∃ rep, compactRep ecPool intervals = some rep ∧ Holds ecPool intervals rep := by
  refine Loop.foldlM_invariant (Holds ecPool) holds_empty fun pre x post rep hsplit hinv => ?_
  have hsorted := h.first_lt
  rw [hsplit, pairwise_append] at hsorted
  refine hinv.addInterval (fun i hi => hsorted.2.2 i hi x mem_cons_self) (hpos x ?_)
  rw [hsplit]
  exact mem_append_right _ mem_cons_self

theorem last_pos_of_compactRep (hrun : compactRep ecPool intervals = some rep) :
    ∀ i ∈ intervals, 0 < i.last := by
  refine Loop.foldlM_some_invariant (fun pre _ => ∀ i ∈ pre, 0 < i.last) hrun (nofun) ?_
  intro pre x _ rep rep' _ hinv hstep i hi
  rcases mem_append.1 hi with hi | hi
  · exact hinv i hi
  · rw [mem_singleton.1 hi]
    exact (Nat.zero_le _).trans_lt (of_assert hstep).1

theorem mem_backTo (h : Increasing intervals) (hrep : Holds ecPool intervals rep) {les : ℕ} :
    c ∈ rep.backTo les ↔ ∃ i ∈ intervals, i.maybeWentRw ∧ NotSuperseded ecPool intervals i ∧
      les ≤ i.last ∧ c = (i.first, shardSet ecPool i.acting) := by
  have hdown : SortedList.DownClosed (fun i : CompactInterval => !decide (i.last < les))
      rep.intervals.reverse := by
    have hsorted : rep.intervals.Pairwise fun i j => i.last < j.last :=
      (pairwise_map.2 (h.first_lt.imp fun h => h.2)).sublist hrep.sublist
    refine pairwise_reverse.2 (hsorted.imp fun {i j} hij hle => ?_)
    simp only [Bool.not_eq_true', decide_eq_false_iff_not, not_lt] at hle ⊢
    exact hle.trans hij.le
  unfold CompactRep.backTo
  rw [SortedList.takeWhile_eq_filter hdown]
  simp only [mem_map, mem_filter, mem_reverse, Bool.not_eq_true',
    decide_eq_false_iff_not, not_lt, hrep.mem_iff]
  constructor
  · rintro ⟨_, ⟨⟨i, hi, hrw, hns, rfl⟩, hles⟩, rfl⟩
    exact ⟨i, hi, hrw, hns, hles, rfl⟩
  · rintro ⟨i, hi, hrw, hns, hles, rfl⟩
    exact ⟨i.compact ecPool, ⟨⟨i, hi, hrw, hns, rfl⟩, hles⟩, rfl⟩

end Representations

/-! ## When the verdicts agree -/

section Agree

variable {ecPool : Bool} {les : ℕ} {intervals : List PgInterval}

/-- The verdicts of the two representations are the same, and the compact one probes at
least the shards of the classic one. -/
structure PriorsAgree (ecPool : Bool) (les : ℕ) (intervals : List PgInterval) (rep : CompactRep)
    (status : ℤ → OsdStatus) (pcontdec : Finset PgShard → Bool) (up acting : List ℤ) : Prop where
  pgDown_eq : (compactPrior status pcontdec ecPool les rep up acting).pgDown =
    (classicPrior status pcontdec ecPool les (classicRep intervals) up acting).pgDown
  probe_subset : (classicPrior status pcontdec ecPool les (classicRep intervals) up acting).probe ⊆
    (compactPrior status pcontdec ecPool les rep up acting).probe

/-- Every OSD of an interval that counts is in one that is kept, not before it, whose
shards on other OSDs are shards of the interval. -/
def Covered (ecPool : Bool) (les : ℕ) (intervals : List PgInterval) : Prop :=
  ∀ i ∈ intervals, i.maybeWentRw → les ≤ i.last → ∀ x ∈ shardSet ecPool i.acting,
    ∃ k ∈ intervals, k.maybeWentRw ∧ i.first ≤ k.first ∧ NotSuperseded ecPool intervals k ∧
      (∃ y ∈ shardSet ecPool k.acting, y.osd = x.osd) ∧
      ∀ y ∈ shardSet ecPool k.acting, y.osd ≠ x.osd → y ∈ shardSet ecPool i.acting

/-- `pcontdec` says yes to more shards if it does to fewer. -/
def MonotonePred (pcontdec : Finset PgShard → Bool) : Prop :=
  ∀ a b, a ⊆ b → pcontdec a = true → pcontdec b = true

variable {status : ℤ → OsdStatus} {pcontdec : Finset PgShard → Bool}

/-- What is not down for a later interval is not down for an earlier one. -/
theorem OsdStatus.state_later {st : OsdStatus} {start start' : ℕ} (hle : start ≤ start') :
    (st.state start = .down → st.state start' = .down) ∧
      (st.state start' = .lost → st.state start = .lost) := by
  cases st with
  | up => exact ⟨nofun, nofun⟩
  | dne => exact ⟨nofun, nofun⟩
  | notUp lostAt =>
    unfold state
    dsimp only
    split_ifs with h h' h'
    · exact ⟨id, id⟩
    · exact ⟨fun h => (nomatch h), fun h => (nomatch h)⟩
    · exact absurd (hle.trans_lt h') h
    · exact ⟨id, id⟩

/-- A later interval that covers a down OSD of a blocking one blocks as well. -/
theorem Blocks.later (hmono : MonotonePred pcontdec) {start start' : ℕ}
    {acting acting' : Finset PgShard} {x : PgShard}
    (henough : pcontdec (upNow status start acting) = false)
    (hx : (status x.osd).state start = .down) (hle : start ≤ start')
    (hhas : ∃ y ∈ acting', y.osd = x.osd) (hothers : ∀ y ∈ acting', y.osd ≠ x.osd → y ∈ acting) :
    Blocks status pcontdec start' acting' where
  not_enough := by
    rw [Bool.eq_false_iff]
    intro hyes
    refine absurd (hmono _ _ (fun y hy => ?_) hyes) (Bool.eq_false_iff.1 henough)
    obtain ⟨hy, hup⟩ := Finset.mem_filter.1 hy
    have hdown := (state_later hle).1 hx
    have hne : y.osd ≠ x.osd := by
      intro heq
      rw [heq, hdown] at hup
      rcases hup with h | h <;> cases h
    refine Finset.mem_filter.2 ⟨hothers y hy hne, ?_⟩
    rcases hup with hup | hlost
    · cases hst : status y.osd with
      | up => exact .inl rfl
      | dne => rw [hst] at hup; cases hup
      | notUp lostAt =>
        rw [hst, state] at hup
        split at hup <;> cases hup
    · exact .inr ((state_later hle).2 hlost)
  some_down := by
    obtain ⟨y, hy, heq⟩ := hhas
    exact ⟨y, Finset.mem_filter.2 ⟨hy, heq ▸ (state_later hle).1 hx⟩⟩

theorem priorsAgree_of_covered (h : Increasing intervals) (hrep : Holds ecPool intervals rep)
    (hcovered : Covered ecPool les intervals) (hmono : MonotonePred pcontdec) (up acting : List ℤ) :
    PriorsAgree ecPool les intervals rep status pcontdec up acting where
  pgDown_eq := by
    rw [Bool.eq_iff_iff, compactPrior, classicPrior, pgDown_priorSet, pgDown_priorSet]
    constructor
    · rintro ⟨c, hc, hblocks⟩
      obtain ⟨i, hi, hrw, -, hles, rfl⟩ := (mem_backTo h hrep).1 hc
      exact ⟨_, (mem_classicBackTo h).2 ⟨i, hi, hrw, hles, rfl⟩, hblocks⟩
    · rintro ⟨c, hc, hblocks⟩
      obtain ⟨i, hi, hrw, hles, rfl⟩ := (mem_classicBackTo h).1 hc
      obtain ⟨x, hx⟩ := hblocks.some_down
      obtain ⟨hx, hdown⟩ := Finset.mem_filter.1 hx
      obtain ⟨k, hk, hkrw, hle, hns, hhas, hothers⟩ := hcovered i hi hrw hles x hx
      have hkles := hles.trans (h.last_le hi hk hle)
      exact ⟨_, (mem_backTo h hrep).2 ⟨k, hk, hkrw, hns, hkles, rfl⟩,
        .later hmono hblocks.not_enough hdown hle hhas hothers⟩
  probe_subset := by
    refine probe_priorSet_mono ?_
    rw [classicRep_eq h]
    refine Finset.biUnion_subset.2 fun i hi => hrep.participants i ?_
    exact (mem_filter.1 (mem_toFinset.1 hi)).1

/-- One OSD of an interval was last marked lost when the interval started and is down;
the others are up. -/
def onlyDown (osd : ℤ) (start : ℕ) (o : ℤ) : OsdStatus := if o = osd then .notUp start else .up

/-- Shards outside of a set are enough. -/
def outside (acting : Finset PgShard) (shards : Finset PgShard) : Bool := !decide (shards ⊆ acting)

theorem monotone_outside (acting : Finset PgShard) : MonotonePred (outside acting) := by
  intro a b hab ha
  simp only [outside, Bool.not_eq_true', decide_eq_false_iff_not] at ha ⊢
  exact fun hb => ha (hab.trans hb)

theorem covered_of_agree (h : Increasing intervals) (hrep : Holds ecPool intervals rep)
    (hagree : ∀ status pcontdec, MonotonePred pcontdec →
      PriorsAgree ecPool les intervals rep status pcontdec [] []) :
    Covered ecPool les intervals := by
  intro i hi hrw hles x hx
  have heq := (hagree (onlyDown x.osd i.first) (outside (shardSet ecPool i.acting))
    (monotone_outside _)).pgDown_eq
  rw [Bool.eq_iff_iff, compactPrior, classicPrior, pgDown_priorSet, pgDown_priorSet] at heq
  have hself : (onlyDown x.osd i.first x.osd).state i.first = .down := by
    simp [onlyDown, state]
  -- the interval itself blocks: what is up of it does not leave it
  obtain ⟨c, hc, hblocks⟩ := heq.2 ⟨_, (mem_classicBackTo h).2 ⟨i, hi, hrw, hles, rfl⟩, by
    simp [outside, upNow], x, Finset.mem_filter.2 ⟨hx, hself⟩⟩
  obtain ⟨k, hk, hkrw, hns, -, rfl⟩ := (mem_backTo h hrep).1 hc
  obtain ⟨y, hy⟩ := hblocks.some_down
  obtain ⟨hy, hdown⟩ := Finset.mem_filter.1 hy
  have hstate : ∀ z : PgShard, z.osd ≠ x.osd →
      (onlyDown x.osd i.first z.osd).state k.first = .up := by
    intro z hz
    rw [onlyDown, if_neg hz]
    rfl
  have hosd : y.osd = x.osd := by
    by_contra hne
    rw [hstate y hne] at hdown
    cases hdown
  refine ⟨k, hk, hkrw, ?_, hns, ⟨y, hy, hosd⟩, fun z hz hne => ?_⟩
  · by_contra hlt
    rw [hosd, onlyDown, if_pos rfl, state, if_pos (not_le.1 hlt)] at hdown
    cases hdown
  · have hnot := hblocks.not_enough
    simp only [outside, Bool.not_eq_false', decide_eq_true_eq] at hnot
    exact hnot (Finset.mem_filter.2 ⟨hz, .inl (hstate z hne)⟩)

/-- **The compact and the classic past intervals give the same verdict**, whatever the
states of the OSDs and the predicate are, if and only if no interval ends at epoch zero
and those that are dropped are covered by later ones that are kept. -/
theorem compact_agrees_iff (ecPool : Bool) (les : ℕ) {intervals : List PgInterval}
    (h : Increasing intervals) :
    (∃ rep, compactRep ecPool intervals = some rep ∧
      ∀ status pcontdec, MonotonePred pcontdec → ∀ up acting,
        PriorsAgree ecPool les intervals rep status pcontdec up acting) ↔
    (∀ i ∈ intervals, 0 < i.last) ∧ Covered ecPool les intervals := by
  constructor
  · rintro ⟨rep, hrun, hagree⟩
    have hpos := last_pos_of_compactRep hrun
    obtain ⟨rep', hrun', hrep⟩ := exists_compactRep ecPool h hpos
    cases hrun.symm.trans hrun'
    exact ⟨hpos, covered_of_agree h hrep fun status pcontdec hmono =>
      hagree status pcontdec hmono [] []⟩
  · rintro ⟨hpos, hcovered⟩
    obtain ⟨rep, hrun, hrep⟩ := exists_compactRep ecPool h hpos
    exact ⟨rep, hrun, fun status pcontdec hmono up acting =>
      priorsAgree_of_covered h hrep hcovered hmono up acting⟩

end Agree

/-- An interval with both OSDs, and then one with each of them. -/
def bothThenEach : List PgInterval :=
  [⟨1, 2, [0, 1], true⟩, ⟨3, 4, [0], true⟩, ⟨5, 6, [1], true⟩]

theorem compact_agrees_bothThenEach : ∃ rep, compactRep false bothThenEach = some rep ∧
      ∀ status pcontdec, MonotonePred pcontdec → ∀ up acting,
        PriorsAgree false 0 bothThenEach rep status pcontdec up acting := by
  refine (compact_agrees_iff false 0 ⟨by decide, by decide⟩).2 ⟨by decide, ?_⟩
  unfold Covered NotSuperseded
  decide

/-- An interval with two OSDs, and then one with the first of them. -/
def bothThenFirst : List PgInterval := [⟨1, 2, [0, 1], true⟩, ⟨3, 4, [0], true⟩]

/-- The first OSD is gone, the second is down. -/
def firstGone (osd : ℤ) : OsdStatus := if osd = 0 then .dne else .notUp 0

/-- The classic intervals wait for the second OSD, the compact ones have forgotten it. -/
theorem compact_forgets_interval :
    Increasing bothThenFirst ∧ MonotonePred (fun shards => shards ≠ ∅) ∧
    ∃ rep, compactRep false bothThenFirst = some rep ∧
      (compactPrior firstGone (fun shards => shards ≠ ∅) false 0 rep [] []).pgDown = false ∧
      (classicPrior firstGone (fun shards => shards ≠ ∅) false 0 (classicRep bothThenFirst)
        [] []).pgDown = true := by
  have hrun : (compactRep false bothThenFirst).map (fun rep =>
      (compactPrior firstGone (fun shards => shards ≠ ∅) false 0 rep [] []).pgDown) =
        some false := by
    decide +kernel
  obtain ⟨rep, hrep, hdown⟩ := of_map hrun
  refine ⟨⟨by decide, by decide⟩, fun a b hab ha => ?_, rep, hrep, hdown, by decide +kernel⟩
  simp only [decide_eq_true_eq, ← Finset.nonempty_iff_ne_empty] at ha ⊢
  exact ha.mono hab

end Ceph.Osd
