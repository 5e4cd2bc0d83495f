import Ceph.Lib.IntervalRuns

/-!
# `interval_set`

The class of `include/interval_set.h` over `uint64_t`: a map from the start of a run to its length,
and the number of members, counted on the side in an `int64_t`.

* `insertAt_eq_place` — an interval with room around it is placed as in `IntervalMap`.
* `insertSafe_iff` — `insert` refuses a range that meets the set, except behind a run that ends
  where the range begins: there the next run is only compared with the end of the range.  It also
  takes a run or a range that ends with the last value of a word for one that ends at zero.
-/

namespace Ceph.Include

open IntervalMap List Ceph.IntervalSet

/-- `interval_set`; an entry of `m` is an extent whose value is its length. -/
structure IntervalSet where
  m : Ceph.IntervalSet
  size : ℤ
  deriving DecidableEq

/-- An entry of the map. -/
def run (start len : ℕ) : Extent ℕ := ⟨start, len, len⟩

/-- `find_adj_m` goes past `p`: it ends before `start`, or the entry after it is not behind
`start`. -/
def Passed (start : ℕ) (p : Extent ℕ) (rest : Ceph.IntervalSet) : Prop :=
  p.off < start ∧ (p.stop % 2 ^ 64 < start ∨ ∃ n ∈ rest.head?, n.off ≤ start)

instance (start : ℕ) (p : Extent ℕ) (rest : Ceph.IntervalSet) : Decidable (Passed start p rest) :=
  inferInstanceAs (Decidable (_ ∧ _))

/-- The range is appended to `p`, and combined with the next entry if it ends there. -/
def append (p : Extent ℕ) (start len : ℕ) : Ceph.IntervalSet → Ceph.IntervalSet
  | [] => [run p.off ((p.len + len) % 2 ^ 64)]
  | n :: rest =>
    if (start + len) % 2 ^ 64 = n.off then run p.off ((p.len + len + n.len) % 2 ^ 64) :: rest
    else run p.off ((p.len + len) % 2 ^ 64) :: n :: rest

/-- `insert`, on the map from an entry on. -/
def insertAt (start len : ℕ) : Ceph.IntervalSet → Option Ceph.IntervalSet
  | [] => some [run start len]
  | p :: rest =>
    if Passed start p rest then (insertAt start len rest).map (p :: ·)
    else if p.off < start then do
      assert (p.stop % 2 ^ 64 = start)
      some (append p start len rest)
    else if (start + len) % 2 ^ 64 = p.off then some (run start ((len + p.len) % 2 ^ 64) :: rest)
    else do
      assert ((start + len) % 2 ^ 64 < p.off)
      -- `m[start] = len` replaces an entry with that start
      some (run start len :: if p.off = start then rest else p :: rest)

namespace IntervalSet

/-- `insert` -/
def insert (start len : ℕ) (s : IntervalSet) : Option IntervalSet := do
  assert (0 < len)
  let m ← insertAt start len s.m
  some ⟨m, Int.bmod (s.size + len) (2 ^ 64)⟩

end IntervalSet

variable {start len : ℕ} {m : Ceph.IntervalSet}

theorem passed_iff {p : Extent ℕ} (h : WF lengths 1 (p :: m)) (hstop : p.stop < 2 ^ 64) :
    Passed start p m ↔ p.stop < start := by
  rw [Passed, Nat.mod_eq_of_lt hstop]
  refine ⟨fun hpass => ?_, fun hlt => ⟨(h.off_lt_stop mem_cons_self).trans hlt, .inl hlt⟩⟩
  rcases hpass.2 with hlt | ⟨n, hn, hle⟩
  · exact hlt
  · exact (h.head n (mem_of_mem_head? hn)).trans hle

theorem join_eq_run {e e' : Extent ℕ} (hend : e.stop = e'.off) (hval : e.val = e.len)
    (hval' : e'.val = e'.len) : join lengths e e' = run e.off (e.len + e'.len) := by
  have hlen : e'.stop - e.off = e.len + e'.len := by
    rw [Extent.stop] at *
    omega
  rw [join, hlen, hval, hval']
  rfl

theorem not_joins {e e' : Extent ℕ} (hne : e.stop ≠ e'.off) : ¬ Joins lengths e e' :=
  fun hj => hne hj.1

theorem append_eq {p : Extent ℕ} (h : WF lengths 1 (p :: m)) (hend : p.stop = start)
    (hroom : ∀ e ∈ m, start + len ≤ e.off) (hword : ∀ e ∈ m, e.stop ≤ 2 ^ 64)
    (hsum : total (p :: m) + len < 2 ^ 64) :
    append p start len m = mergeNext lengths (run p.off (p.len + len)) m := by
  cases m with
  | nil =>
    have : p.len + len < 2 ^ 64 := by simpa [total] using hsum
    rw [append, Nat.mod_eq_of_lt this]
    rfl
  | cons n m =>
    have hn := h.tail.off_lt_stop mem_cons_self
    have hroomn := hroom n mem_cons_self
    have hwordn := hword n mem_cons_self
    have hlens : p.len + len + n.len < 2 ^ 64 := by
      simp only [total, map_cons, sum_cons] at hsum
      omega
    have hstop : start + len = (run p.off (p.len + len)).stop := by
      rw [← hend]
      exact Nat.add_assoc ..
    rw [append, mergeNext, Nat.mod_eq_of_lt (by omega : start + len < 2 ^ 64), hstop,
      Nat.mod_eq_of_lt hlens, Nat.mod_eq_of_lt (by omega : p.len + len < 2 ^ 64)]
    by_cases heq : (run p.off (p.len + len)).stop = n.off
    · rw [if_pos heq, if_pos ⟨heq, rfl⟩, join_eq_run heq rfl (h.tail.sized n mem_cons_self).2]
      rfl
    · rw [if_neg heq, if_neg (not_joins heq)]

theorem insertAt_eq_place (h : WF lengths 1 m) (hlen : 0 < len)
    (hroom : ∀ e ∈ m, e.stop ≤ start ∨ start + len ≤ e.off) (hword : ∀ e ∈ m, e.stop ≤ 2 ^ 64)
    (hrange : start + len ≤ 2 ^ 64) (hsum : total m + len < 2 ^ 64) :
    insertAt start len m = some (place lengths (run start len) m) := by
  induction m with
  | nil => rfl
  | cons p m ih =>
    have hval : p.val = p.len := (h.sized p mem_cons_self).2
    have hlt := h.off_lt_stop mem_cons_self
    have hroomp := hroom p mem_cons_self
    have hwordp := hword p mem_cons_self
    obtain ⟨hlens, hsum'⟩ : len + p.len < 2 ^ 64 ∧ total m + len < 2 ^ 64 := by
      simp only [total, map_cons, sum_cons] at hsum ⊢
      omega
    rw [insertAt, place]
    by_cases hoff : p.off < start
    · have hstop : p.stop < 2 ^ 64 := by omega
      rw [if_pos (show p.off < (run start len).off from hoff)]
      by_cases hpass : p.stop < start
      · rw [if_pos ((passed_iff h hstop).2 hpass), if_neg (not_joins hpass.ne), ih h.tail
          (fun e he => hroom e (mem_cons_of_mem _ he))
          (fun e he => hword e (mem_cons_of_mem _ he)) hsum']
        rfl
      have hend : p.stop = start := by omega
      have hafter : ∀ e ∈ m, start + len ≤ e.off := fun e he => by
        have := h.head e he
        have := h.tail.off_lt_stop he
        have := hroom e (mem_cons_of_mem _ he)
        omega
      have hjoin : join lengths p (run start len) = run p.off (p.len + len) :=
        join_eq_run hend hval rfl
      rw [if_neg (mt (passed_iff h hstop).1 hpass), if_pos hoff, Nat.mod_eq_of_lt hstop,
        assert_bind hend, if_pos ⟨hend, rfl⟩, hjoin,
        append_eq h hend hafter (fun e he => hword e (mem_cons_of_mem _ he)) hsum]
    · have hrun : start + len = (run start len).stop := rfl
      rw [if_neg (fun hpass => hoff hpass.1), if_neg hoff,
        if_neg (show ¬ p.off < (run start len).off from hoff), mergeNext,
        Nat.mod_eq_of_lt (by omega : start + len < 2 ^ 64), Nat.mod_eq_of_lt hlens, hrun]
      by_cases heq : (run start len).stop = p.off
      · rw [if_pos heq, if_pos ⟨heq, rfl⟩, join_eq_run heq rfl hval]
        rfl
      · rw [if_neg heq, if_neg (not_joins heq), assert_bind (by omega), if_neg (by omega)]

/-- A run that ends before the last value is met in its inside, or no run is met before the start
of the range and the range ends before the last value. -/
def Refused (m : Ceph.IntervalSet) (start len : ℕ) : Prop :=
  (∃ p ∈ m, p.off < start ∧ start < p.stop ∧ p.stop < 2 ^ 64) ∨
    start + len < 2 ^ 64 ∧ ∀ p ∈ m, p.off < start → p.stop < start

/-- Where the range meets a run, `insert` aborts only if it compares the right ends. -/
theorem insertAt_eq_none_iff (h : WF lengths 1 m) (hword : ∀ e ∈ m, e.stop ≤ 2 ^ 64)
    (hrange : start + len ≤ 2 ^ 64) (hlen : len < 2 ^ 64)
    (hmeets : ∃ e ∈ m, start < e.stop ∧ e.off < start + len) :
    insertAt start len m = none ↔ Refused m start len := by
  induction m with
  | nil => simp at hmeets
  | cons p m ih =>
    obtain ⟨e, he, h1, h2⟩ := hmeets
    have hwordp := hword p mem_cons_self
    have hlt := h.off_lt_stop mem_cons_self
    have hhead := h.head
    have hpos : ∀ q ∈ m, q.off < q.stop ∧ q.stop ≤ 2 ^ 64 := fun q hq =>
      ⟨h.tail.off_lt_stop hq, hword q (mem_cons_of_mem _ hq)⟩
    rw [insertAt, Refused, exists_mem_cons_iff, forall_mem_cons]
    by_cases hoff : p.off < start
    · rcases lt_or_eq_of_le hwordp with hstop | hstop
      · by_cases hpass : p.stop < start
        · have he' : e ∈ m := (mem_cons.1 he).resolve_left fun heq => by
            rw [heq] at h1
            omega
          rw [if_pos ((passed_iff h hstop).2 hpass), Option.map_eq_none_iff, ih h.tail
            (fun q hq => (hpos q hq).2) ⟨e, he', h1, h2⟩, Refused]
          grind
        · rw [if_neg (mt (passed_iff h hstop).1 hpass), if_pos hoff, Nat.mod_eq_of_lt hstop]
          by_cases hend : p.stop = start
          · rw [assert_bind hend]
            grind
          · rw [assert_bind_of_not hend]
            grind
      · -- the run ends with the last value, and is the last one
        have hnil : m = [] := eq_nil_iff_forall_not_mem.2 fun q hq => by
          have := hhead q hq
          have := hpos q hq
          omega
        rw [if_pos ⟨hoff, .inl (by omega)⟩, hnil]
        simp [insertAt]
        omega
    · have hle : p.off ≤ e.off := h.off_le_of_covered ⟨e, he, le_rfl, h.off_lt_stop he⟩
      rw [if_neg (fun hpass => hoff hpass.1), if_neg hoff]
      rcases lt_or_eq_of_le hrange with hend | hend
      · rw [Nat.mod_eq_of_lt hend, if_neg (by omega), assert_bind_of_not (by omega)]
        grind
      · rw [hend, if_neg (by omega), assert_bind (by omega)]
        grind

namespace IntervalSet

variable {s : IntervalSet}

/-- The runs are disjoint, not adjacent and not empty and consist of words, and `_size` is their
total. -/
structure Normal (s : IntervalSet) : Prop where
  wf : WF lengths 1 s.m
  word : ∀ e ∈ s.m, e.stop ≤ 2 ^ 64
  size_eq : s.size = total s.m
  size_lt : s.size < 2 ^ 63

/-- No member of the set is in the range. -/
def Apart (s : IntervalSet) (start len : ℕ) : Prop :=
  Disjoint (Finset.Ico start (start + len)) (bytes s.m)

/-- `s'` is normal and has the range in addition. -/
def Adds (s : IntervalSet) (start len : ℕ) (s' : IntervalSet) : Prop :=
  s'.Normal ∧ bytes s'.m = Finset.Ico start (start + len) ∪ bytes s.m

theorem total_of_apart (h : s.Normal) (hapart : s.Apart start len) (hwf : WF lengths 1 m)
    (hbytes : bytes m = Finset.Ico start (start + len) ∪ bytes s.m) :
    total m = total s.m + len := by
  rw [← card_bytes hwf, hbytes, Finset.card_union_of_disjoint hapart, Nat.card_Ico,
    card_bytes h.wf, Nat.add_sub_cancel_left, Nat.add_comm]

theorem insert_adds (h : s.Normal) (hlen : 0 < len) (hrange : start + len ≤ 2 ^ 64)
    (hapart : s.Apart start len) (hsum : total s.m + len < 2 ^ 63) :
    ∃ s', s.insert start len = some s' ∧ s.Adds start len s' := by
  obtain ⟨m, hins, hwf, hbytes⟩ := insertNew_bytes h.wf hlen hapart
  obtain ⟨-, hroom, rfl⟩ := insertNew_eq_some hins
  have htotal := total_of_apart h hapart hwf hbytes
  have hsize := h.size_eq
  have hbmod : Int.bmod (s.size + len) (2 ^ 64) = s.size + len :=
    Int.bmod_eq_of_le (by omega) (by omega)
  refine ⟨⟨_, s.size + len⟩, ?_, ⟨hwf, ?_, ?_, ?_⟩, hbytes⟩
  · rw [insert, assert_bind hlen,
      insertAt_eq_place h.wf hlen hroom h.word hrange (by omega), hbmod]
    rfl
  · exact forall_stop_place (P := (· ≤ 2 ^ 64)) h.word hrange
  · rw [htotal, hsize, Nat.cast_add]
  · change s.size + len < 2 ^ 63
    omega

/-- What is expected of `insert`: it adds the range, or aborts if the range meets the set. -/
def InsertSafe (s : IntervalSet) (start len : ℕ) : Prop :=
  (s.Apart start len → ∃ s', s.insert start len = some s' ∧ s.Adds start len s') ∧
    (¬ s.Apart start len → s.insert start len = none)

/-- **`insert` adds a range or refuses it**, exactly if the size of what is added fits into its
word, and what is not added is refused by one of the comparisons. -/
theorem insertSafe_iff (h : s.Normal) (hlen : 0 < len) (hword : len < 2 ^ 64)
    (hrange : start + len ≤ 2 ^ 64) : s.InsertSafe start len ↔
      (s.Apart start len → total s.m + len < 2 ^ 63) ∧
      (¬ s.Apart start len → Refused s.m start len) := by
  rw [InsertSafe]
  refine and_congr (forall_congr' fun hapart => ⟨?_, insert_adds h hlen hrange hapart⟩)
    (forall_congr' fun hmeets => ?_)
  · rintro ⟨s', -, hnormal, hbytes⟩
    have htotal := total_of_apart h hapart hnormal.wf hbytes
    have hsize := hnormal.size_eq
    have hlt := hnormal.size_lt
    omega
  · obtain ⟨x, hx, hmem⟩ := Finset.not_disjoint_iff.1 hmeets
    rw [Finset.mem_Ico] at hx
    obtain ⟨e, he, h1, h2⟩ := mem_bytes.1 hmem
    rw [insert, assert_bind hlen,
      ← insertAt_eq_none_iff h.wf h.word hrange hword ⟨e, he, hx.1.trans_lt h2, h1.trans_lt hx.2⟩]
    cases insertAt start len s.m <;> simp

/-- Two runs of five members with a gap of five between them. -/
def twoRuns : IntervalSet := ⟨[run 0 5, run 10 5], 10⟩

theorem twoRuns_normal : twoRuns.Normal :=
  ⟨⟨by simp [twoRuns, run, Extent.stop], by simp [twoRuns, run, lengths]⟩,
    by simp [twoRuns, run, Extent.stop], rfl, by decide⟩

/-- A range in the gap is added, and one that reaches from the gap into the second run is
refused. -/
theorem insertSafe_gap : (∃ s', twoRuns.insert 6 4 = some s' ∧ twoRuns.Adds 6 4 s') ∧
    twoRuns.insert 6 8 = none := by
  have hadd := @insertSafe_iff 6 4 _ twoRuns_normal (by decide) (by decide) (by decide)
  have hrefuse := @insertSafe_iff 6 8 _ twoRuns_normal (by decide) (by decide) (by decide)
  have hapart : twoRuns.Apart 6 4 := by rw [Apart]; decide
  have hmeets : ¬ twoRuns.Apart 6 8 := by rw [Apart]; decide
  have hnone : Refused twoRuns.m 6 8 := .inr (by simp [twoRuns, run, Extent.stop])
  exact ⟨(hadd.2 ⟨fun _ => by decide, fun h => absurd hapart h⟩).1 hapart,
    (hrefuse.2 ⟨fun h => absurd h hmeets, fun _ => hnone⟩).2 hmeets⟩

/-- A range that fills the gap and reaches into the second run is added to the first one.  A range
of `2 ^ 64 - 1` members is counted as -1, and one inside a run that ends with the last value is
added beside it. -/
theorem not_insertSafe :
    (twoRuns.Normal ∧ twoRuns.insert 5 8 = some ⟨[run 0 13, run 10 5], 18⟩ ∧
      ¬ twoRuns.InsertSafe 5 8) ∧
    insert 0 (2 ^ 64 - 1) ⟨[], 0⟩ = some ⟨[run 0 (2 ^ 64 - 1)], -1⟩ ∧
    insert (2 ^ 64 - 2) 1 ⟨[run (2 ^ 64 - 4) 4], 4⟩ =
      some ⟨[run (2 ^ 64 - 4) 4, run (2 ^ 64 - 2) 1], 5⟩ := by
  have hins : twoRuns.insert 5 8 = some ⟨[run 0 13, run 10 5], 18⟩ := by decide
  refine ⟨⟨twoRuns_normal, hins, fun hsafe => ?_⟩, by decide +kernel, by decide +kernel⟩
  have hmeets : ¬ twoRuns.Apart 5 8 := by rw [Apart]; decide
  simpa [hins] using hsafe.2 hmeets

end IntervalSet

end Ceph.Include
