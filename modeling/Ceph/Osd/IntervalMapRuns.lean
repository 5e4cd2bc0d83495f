import Ceph.Osd.PGTransaction

/-!
# Runs of `interval_map`

`common/interval_map.h`.  The code finds the extents that a range meets by two searches in a
`std::map` (`get_range`), and asserts that what it puts into the map has a new key.  On well-formed
maps that gives the operations of `IntervalMap`.  Here a map is built by any sequence of calls of
`insert` and `erase`, as `PGTransaction` builds the updates of an object.

* `exists_split_getRange` — the extents that `get_range` finds are those that the range meets.
* `eraseRange_eq`, `insertRange_eq`, `intersectRange_eq` — the operations on well-formed maps.
* `MapCall.run_spec` — no call fails an assertion, and each position has what the last call over
  it has left there.
* `MapCall.lastWriterWins` — the same, and `intersect` restricts the map to a range.
-/

namespace Ceph.Osd

open List IntervalMap

universe u v

/-! ## The operations in the code's terms -/

section Code

variable {V : Type u} {β : Type v} (S : Splitter V) (off len : ℕ)

/-- `get_range`: the positions of the first extent that ends after `off` and of the first that
starts at `off + len` or later. -/
def getRange (m : IntervalMap V) : ℕ × ℕ :=
  -- `upper_bound`, and one back unless it is the first
  let fst := (m.takeWhile fun e => e.off ≤ off).length - 1
  let fst := if m[fst]?.any fun e => e.stop ≤ off then fst + 1 else fst
  (fst, (m.takeWhile fun e => e.off < off + len).length)

/-- The extents from the first to the second position. -/
def inRange (m : IntervalMap V) : IntervalMap V :=
  (m.take (getRange off len m).2).drop (getRange off len m).1

/-- `std::map::insert`, and whether the key is new. -/
def mapInsert (e : Extent V) (m : IntervalMap V) : IntervalMap V × Bool :=
  if m.any fun x => x.off = e.off then (m, false)
  else (m.takeWhile (fun x => x.off < e.off) ++ e :: m.dropWhile fun x => x.off < e.off, true)

/-- `erase`: the extents that the range meets are replaced by their pieces outside of it. -/
def eraseRange (m : IntervalMap V) : IntervalMap V :=
  if len = 0 then m
  else
    let toInsert := (inRange off len m).flatMap fun e => leftOf S off e ++ rightOf S (off + len) e
    toInsert.foldl (fun m e => (mapInsert e m).1)
      (m.take (getRange off len m).1 ++ m.drop (getRange off len m).2)

/-- `insert`; with `try_merge` the new extent is put in its place by `place`. -/
def insertRange (a : V) (m : IntervalMap V) : Option (IntervalMap V) :=
  if 0 < len ∧ len = S.length a then
    let m := eraseRange S off len m
    -- `assert(p.second)`
    if (mapInsert ⟨off, len, a⟩ m).2 then some (place S ⟨off, len, a⟩ m) else none
  else none

/-- `intersect` -/
def intersectRange (m : IntervalMap V) : Option (IntervalMap V) :=
  (inRange off len m).foldlM (fun ret e =>
    insertRange S (clip S off len e).off (clip S off len e).len (clip S off len e).val ret) []

variable {S} {at_ : V → ℕ → β} {m : IntervalMap V}

/-- The first search finds the end of the extents that end at or before `off`. -/
theorem fst_getRange (h : WF S 0 m) :
    (getRange off len m).1 = (m.takeWhile fun e => e.stop ≤ off).length := by
  induction m with
  | nil => rfl
  | cons e m ih =>
    have hstop := h.off_lt_stop mem_cons_self
    have ih := ih h.tail
    have hhead := h.head
    simp only [getRange] at ih ⊢
    by_cases hoff : e.off ≤ off
    · rw [takeWhile_cons_of_pos (by simpa using hoff), length_cons, Nat.add_sub_cancel]
      cases m with
      | nil => by_cases hle : e.stop ≤ off <;> simp [hle]
      | cons x m =>
        have hx := hhead x mem_cons_self
        have hxstop := h.tail.off_lt_stop mem_cons_self
        by_cases hxoff : x.off ≤ off
        · rw [takeWhile_cons_of_pos (by simpa using hxoff), length_cons, Nat.add_sub_cancel] at ih
          rw [takeWhile_cons_of_pos (by simpa using hxoff), length_cons, getElem?_cons_succ,
            takeWhile_cons_of_pos (a := e) (by simp; omega), length_cons, ← ih]
          split <;> rfl
        · rw [takeWhile_cons_of_neg (by simpa using hxoff), length_nil]
          have hxlt : ¬ x.stop ≤ off := by omega
          by_cases hle : e.stop ≤ off <;> simp [hle, hxlt]
    · have hlt : ¬ e.stop ≤ off := by omega
      simp [hoff, hlt]

/-- **What `get_range` finds**: the extents that the range meets, between those before and those
behind it. -/
theorem exists_split_getRange (h : WF S 0 m) : ∃ pre mid post, m = pre ++ mid ++ post ∧
    getRange off len m = (pre.length, (pre ++ mid).length) ∧ (∀ e ∈ pre, e.stop ≤ off) ∧
    (∀ e ∈ mid, off < e.stop ∧ e.off < off + len) ∧ ∀ e ∈ post, off + len ≤ e.off := by
  have hends : SortedList.DownClosed (fun e : Extent V => decide (e.stop ≤ off)) m :=
    h.apart.imp_of_mem fun {a b} _ hb hab hle => by
      have := h.off_lt_stop hb
      simp only [decide_eq_true_eq] at hle ⊢
      omega
  have hpre : ∀ e ∈ m.takeWhile fun e => e.stop ≤ off, e.stop ≤ off := fun e he => by
    simpa using mem_takeWhile_imp he
  have hsplit : m = m.takeWhile (fun e => e.stop ≤ off) ++ m.dropWhile fun e => e.stop ≤ off :=
    takeWhile_append_dropWhile.symm
  obtain ⟨rest, hrest⟩ : ∃ rest, rest = m.dropWhile fun e => e.stop ≤ off := ⟨_, rfl⟩
  have hwf : WF S 0 rest := h.sublist (hrest ▸ dropWhile_sublist _)
  have hmeet : ∀ e ∈ rest, off < e.stop := fun e he => by
    rw [hrest, SortedList.dropWhile_eq_filter hends] at he
    simpa using (mem_filter.1 he).2
  obtain ⟨-, hmid, hpost, -⟩ := hwf.cut_at (off + len)
  refine ⟨_, rest.takeWhile fun e => e.off < off + len, rest.dropWhile fun e => e.off < off + len,
    ?_, ?_, hpre, fun e he => ⟨hmeet e ((takeWhile_sublist _).subset he), hmid e he⟩, hpost⟩
  · rw [append_assoc, takeWhile_append_dropWhile, hrest]
    exact hsplit
  · refine Prod.ext (fst_getRange off len h) (congrArg length ?_)
    conv_lhs => rw [hsplit, ← hrest]
    refine takeWhile_append_of_pos fun e he => ?_
    have := hpre e he
    have := h.off_lt_stop ((takeWhile_sublist _).subset he)
    simp only [decide_eq_true_eq]
    omega

/-- A key between those of the map is new, and its extent comes between them. -/
theorem mapInsert_append {pre post : IntervalMap V} {e : Extent V} (hpre : ∀ x ∈ pre, x.off < e.off)
    (hpost : ∀ x ∈ post, e.off < x.off) : mapInsert e (pre ++ post) = (pre ++ e :: post, true) := by
  have hnew : ¬ (pre ++ post).any fun x => x.off = e.off := by
    simp only [any_eq_true, decide_eq_true_eq, not_exists, not_and, mem_append]
    rintro x (hx | hx)
    · exact (hpre x hx).ne
    · exact (hpost x hx).ne'
  have hstop : ∀ x ∈ post, ¬ x.off < e.off := fun x hx => (hpost x hx).not_gt
  rw [mapInsert, if_neg hnew, takeWhile_append_of_pos (by simpa using hpre),
    dropWhile_append_of_pos (by simpa using hpre)]
  cases post with
  | nil => simp
  | cons x post =>
    have hx := hstop x mem_cons_self
    simp [hx]

theorem foldl_mapInsert {pre mid post : IntervalMap V}
    (h : (pre ++ mid ++ post).Pairwise fun e e' => e.off < e'.off) :
    mid.foldl (fun m e => (mapInsert e m).1) (pre ++ post) = pre ++ mid ++ post := by
  induction mid generalizing pre with
  | nil => simp
  | cons e mid ih =>
    have hsorted : (pre ++ [e] ++ mid ++ post).Pairwise fun e e' => e.off < e'.off := by
      simpa using h
    have hnext := ih hsorted
    rw [append_assoc, pairwise_append, cons_append, pairwise_cons] at h
    obtain ⟨hpre, ⟨he, hrest⟩, hsep⟩ := h
    rw [foldl_cons, mapInsert_append (fun x hx => hsep x hx e mem_cons_self)
      fun x hx => he x (mem_append_right _ hx)]
    simpa using hnext

theorem inRange_eq_filter (h : WF S 0 m) :
    inRange off len m = m.filter fun e => off < e.stop ∧ e.off < off + len := by
  obtain ⟨pre, mid, post, rfl, hrange, hpre, hmid, hpost⟩ := exists_split_getRange off len h
  rw [inRange, hrange, take_left, drop_left, filter_append, filter_append, filter_eq_nil_iff.2,
    filter_eq_self.2, filter_eq_nil_iff.2, nil_append, append_nil]
  · intro e he
    have := hpost e he
    simp only [decide_eq_true_eq, not_and, not_lt]
    exact fun _ => this
  · simpa using hmid
  · intro e he
    have := hpre e he
    simp only [decide_eq_true_eq, not_and]
    omega

variable (hS : S.Lawful at_) (h : WF S 0 m)
include hS h

/-- `erase` on a well-formed map. -/
theorem eraseRange_eq : eraseRange S off len m = m.erase S off len := by
  rw [eraseRange]
  by_cases hlen : len = 0
  · rw [if_pos hlen, IntervalMap.erase, if_pos hlen]
  have hwf := WF.erase hS zero_le_one h off len
  rw [IntervalMap.erase, if_neg hlen] at hwf ⊢
  rw [if_neg hlen]
  obtain ⟨pre, mid, post, rfl, hrange, hpre, hmid, hpost⟩ := exists_split_getRange off len h
  have hcut : mid.flatMap (cut S off len) =
      mid.flatMap fun e => leftOf S off e ++ rightOf S (off + len) e := by
    refine flatMap_congr fun e he => if_neg ?_
    have := hmid e he
    omega
  rw [flatMap_append, flatMap_append, flatMap_cut_of_forall fun e he => .inl (hpre e he),
    flatMap_cut_of_forall fun e he => .inr (hpost e he), hcut] at hwf ⊢
  simp only [inRange, hrange]
  rw [take_left, append_assoc, take_left, ← append_assoc, drop_left, drop_left]
  refine foldl_mapInsert (hwf.apart.imp_of_mem fun {e e'} he _ hap => ?_)
  have := hwf.off_lt_stop he
  omega

/-- `insert` on a well-formed map: the key is new after `erase`. -/
theorem insertRange_eq (a : V) : insertRange S off len a m = m.insert S off len a := by
  rw [insertRange, IntervalMap.insert, eraseRange_eq off len hS h]
  split
  next hc =>
    have hnew : (mapInsert ⟨off, len, a⟩ (m.erase S off len)).2 = true := by
      have hwf := WF.erase hS zero_le_one h off len
      rw [mapInsert, if_neg]
      simp only [any_eq_true, decide_eq_true_eq, not_exists, not_and]
      intro x hx hoff
      have := hwf.off_lt_stop hx
      have := erase_disjoint hS h hc.1 hx
      omega
    exact if_pos hnew
  next => rfl

/-- `intersect` on a well-formed map. -/
theorem intersectRange_eq : intersectRange S off len m = m.intersect S off len := by
  have hloop : ∀ (l : IntervalMap V) (ret : IntervalMap V), WF S 0 ret →
      l.foldlM (fun ret e => insertRange S (clip S off len e).off (clip S off len e).len
        (clip S off len e).val ret) ret =
      l.foldlM (fun ret e => IntervalMap.insert S (clip S off len e).off (clip S off len e).len
        (clip S off len e).val ret) ret := by
    intro l
    induction l with
    | nil => exact fun _ _ => rfl
    | cons e l ih =>
      intro ret hret
      rw [foldlM_cons, foldlM_cons, insertRange_eq _ _ hS hret]
      refine Option.bind_congr fun ret' hins => ih ret' ?_
      obtain ⟨hlen, hsize⟩ := insert_eq_some hins
      obtain ⟨_, hins', hwf, -⟩ := insert_spec hS (.inl rfl) hret _ hlen hsize
      exact Option.some_inj.1 (hins'.symm.trans hins) ▸ hwf
  rw [intersectRange, inRange_eq_filter off len h]
  exact hloop _ [] (WF.nil 0)

end Code

/-! ## Runs -/

/-- A call that changes an `interval_map`. -/
inductive MapCall (V : Type u) where
  | insert (off len : ℕ) (a : V)
  | erase (off len : ℕ)

namespace MapCall

variable {V : Type u} {β : Type v} (S : Splitter V) (at_ : V → ℕ → β) (x : ℕ)

/-- The assertions of `insert`. -/
def Fits : MapCall V → Prop
  | insert _ len a => 0 < len ∧ S.length a = len
  | erase .. => True

/-- The position is in the range of the call. -/
def Covers : MapCall V → Prop
  | insert off len _ => off ≤ x ∧ x < off + len
  | erase off len => off ≤ x ∧ x < off + len

instance : DecidablePred (Covers (V := V) x)
  | insert .. => inferInstanceAs (Decidable (_ ∧ _))
  | erase .. => inferInstanceAs (Decidable (_ ∧ _))

/-- What the call leaves at a position of its range: the piece of its value, or nothing. -/
def piece : MapCall V → Option β
  | insert off _ a => some (at_ a (x - off))
  | erase .. => none

/-- The call, on a map. -/
def apply (m : IntervalMap V) : MapCall V → Option (IntervalMap V)
  | insert off len a => insertRange S off len a m
  | erase off len => some (eraseRange S off len m)

/-- The calls, one after the other on a new map. -/
def run (calls : List (MapCall V)) : Option (IntervalMap V) := calls.foldlM (apply S) []

/-- What the last call over a position has left there. -/
def lastWrite (calls : List (MapCall V)) : Option β :=
  (calls.reverse.find? (·.Covers x)).bind (piece at_ x)

/-- **The last writer wins.**  The intervals are disjoint and as long as their values, each position
has what the last call over it has left there, and `intersect` keeps exactly the positions of its
range. -/
def LastWriterWins (calls : List (MapCall V)) : Prop :=
  ∃ m, run S calls = some m ∧ WF S 0 m ∧ (∀ x, get at_ m x = lastWrite at_ x calls) ∧
    ∀ off len, 0 < len → ∃ m', intersectRange S off len m = some m' ∧ WF S 0 m' ∧
      ∀ x, get at_ m' x = if off ≤ x ∧ x < off + len then get at_ m x else none

variable {S at_} (hS : S.Lawful at_)
include hS

/-- One call: its range has its piece, the rest stays. -/
theorem apply_spec {m : IntervalMap V} (h : WF S 0 m) {c : MapCall V} (hc : c.Fits S) :
    ∃ m', apply S m c = some m' ∧ WF S 0 m' ∧
      ∀ x, get at_ m' x = if c.Covers x then c.piece at_ x else get at_ m x := by
  cases c with
  | insert off len a =>
    rw [apply, insertRange_eq off len hS h]
    exact insert_spec hS (.inl rfl) h off hc.1 hc.2
  | erase off len =>
    rw [apply, eraseRange_eq off len hS h]
    exact ⟨_, rfl, WF.erase hS zero_le_one h off len,
      get_erase hS (fun e he => (h.sized e he).2) off len⟩

/-- All calls, by induction on the last one. -/
theorem run_spec {calls : List (MapCall V)} (hfit : ∀ c ∈ calls, c.Fits S) :
    ∃ m, run S calls = some m ∧ WF S 0 m ∧ ∀ x, get at_ m x = lastWrite at_ x calls := by
  induction calls using reverseRecOn with
  | nil => exact ⟨[], rfl, WF.nil 0, fun x => rfl⟩
  | append_singleton calls c ih =>
    obtain ⟨m, hrun, hwf, hget⟩ := ih fun c hc => hfit c (mem_append_left _ hc)
    obtain ⟨m', happly, hwf', hget'⟩ := apply_spec hS hwf (hfit c (by simp))
    refine ⟨m', ?_, hwf', fun x => ?_⟩
    · rw [run, foldlM_append, ← run, hrun]
      simp [happly]
    · rw [hget', hget, lastWrite, lastWrite, reverse_concat]
      by_cases hcov : c.Covers x <;> simp [hcov]

/-- **The last writer wins**, after any calls. -/
theorem lastWriterWins {calls : List (MapCall V)} (hfit : ∀ c ∈ calls, c.Fits S) :
    LastWriterWins S at_ calls := by
  obtain ⟨m, hrun, hwf, hget⟩ := run_spec hS hfit
  refine ⟨m, hrun, hwf, hget, fun off len hlen => ?_⟩
  rw [intersectRange_eq off len hS hwf]
  exact intersect_spec hS (.inl rfl) hwf (.inl hlen)

omit hS in
/-- Zeros in the middle of three written bytes, and the last byte erased again. -/
theorem lastWriterWins_updates : LastWriterWins BufferUpdate.splitMerger BufferUpdate.byte
    [insert 4 3 (.write [1, 1, 1] 0), insert 5 1 (.zero 1), erase 6 2] :=
  lastWriterWins BufferUpdate.splitMerger_lawful
    (by simp [Fits, BufferUpdate.splitMerger, BufferUpdate.length])

end MapCall

end Ceph.Osd
