import Ceph.ErasureCode.Isa.Codec

/-!
# The ISA plugin: which chunks are read and which are written

`isa_decode` chooses the chunks it reads twice, by different loops: once as buffers
and once as rows of the matrix it inverts.

* `assignBuffers_eq` — the buffers: the first `k` chunks at hand are read, the erased
  chunks are written, both in increasing order.
* `decodeIndex_eq` — **the rows are those of the buffers that are read.**
-/

namespace Ceph.Isa

open List Function Nat

/-! ## Sources and targets -/

variable {k : ℕ} {m : ℕ} {erasures : List ℕ}

/-- The loop goes on until `k` sources and all targets have been found. -/
theorem assignBuffers_spec {ids : List ℕ} {st : Recover} (hm : erasures.length ≤ m)
    (hsource : st.source.length ≤ k)
    (htarget : st.target.length + (ids.filter (· ∈ erasures)).length = erasures.length) :
    assignBuffers k m erasures ids st =
      { source := (st.source ++ ids.filter (· ∉ erasures)).take k
        target := st.target ++ ids.filter (· ∈ erasures) } := by
  induction ids generalizing st with
  | nil =>
    rw [assignBuffers, filter_nil, filter_nil, append_nil, append_nil, take_of_length_le hsource]
  | cons i ids ih =>
    rw [assignBuffers]
    by_cases hgo : st.source.length < k ∨ st.target.length < erasures.length
    · rw [if_pos hgo, Recover.step]
      by_cases hi : i ∈ erasures
      · have hlen : (filter (· ∈ erasures) (i :: ids)).length =
            (ids.filter (· ∈ erasures)).length + 1 := by simp [hi]
        have hrest := @ih ⟨st.source, st.target ++ [i]⟩ hsource
          (by rw [length_append, length_singleton]; omega)
        rw [if_neg (not_not.2 hi), if_pos (by omega), hrest]
        simp [hi]
      · have hlen : (filter (· ∈ erasures) (i :: ids)).length =
            (ids.filter (· ∈ erasures)).length := by simp [hi]
        rw [if_pos hi]
        by_cases hroom : st.source.length < k
        · have hrest := @ih ⟨st.source ++ [i], st.target⟩
            (by rw [length_append, length_singleton]; omega)
            (htarget.symm ▸ congrArg (st.target.length + ·) hlen.symm)
          rw [if_pos hroom, hrest]
          simp [hi]
        · have hfull : st.source.length = k := by omega
          rw [if_neg hroom, ih hsource (by omega), take_left' hfull, take_left' hfull]
          simp [hi]
    · -- nothing is missing any more, and no erased chunk is left in `ids`
      have hfull : st.source.length = k := by omega
      have hnone : filter (· ∈ erasures) (i :: ids) = [] :=
        eq_nil_of_length_eq_zero (by omega)
      rw [if_neg hgo, hnone, append_nil, take_left' hfull]

/-- The chunks that are read: the first `k` that are not erased. -/
def sources (k n : ℕ) (erasures : List ℕ) : List ℕ :=
  ((range n).filter (· ∉ erasures)).take k

/-- The erased chunks, as `decode_chunks` lists them. -/
def erasuresOf (n : ℕ) (erased : Finset ℕ) : List ℕ := (range n).filter (· ∈ erased)

variable {erased : Finset ℕ} {i : ℕ}

@[simp] theorem mem_erasuresOf {n : ℕ} :
    i ∈ erasuresOf n erased ↔ i < n ∧ i ∈ erased := by
  simp [erasuresOf]

/-- `decode_chunks` passes the chunks that are not at hand on to `isa_decode`. -/
theorem decodeChunks_eq (lib : IsaL) (c : Codec) (sse2 : Bool) (cache : TableCache)
    (hsub : erased ⊆ Finset.range (c.k + c.m)) (hne : erased.Nonempty) (decoded : ℕ → Region)
    (blocksize : ℕ) :
    decodeChunks lib c sse2 cache (Finset.range (c.k + c.m) \ erased) decoded blocksize =
      isaDecode lib c sse2 cache (erasuresOf (c.k + c.m) erased) decoded blocksize := by
  have heq : (range (c.k + c.m)).filter (· ∉ Finset.range (c.k + c.m) \ erased) =
      erasuresOf (c.k + c.m) erased := by
    refine filter_congr fun i hi => ?_
    simp [mem_range.1 hi]
  obtain ⟨i, hi⟩ := hne
  have hmem : i ∈ erasuresOf (c.k + c.m) erased :=
    mem_erasuresOf.2 ⟨Finset.mem_range.1 (hsub hi), hi⟩
  rw [decodeChunks, heq]
  exact assert_bind (length_pos_of_mem hmem) _

theorem filter_mem_erasuresOf (n : ℕ) (erased : Finset ℕ) :
    (range n).filter (· ∈ erasuresOf n erased) = erasuresOf n erased := by
  refine filter_congr fun i hi => ?_
  simpa using fun _ => mem_range.1 hi

theorem length_erasuresOf_le (n : ℕ) (erased : Finset ℕ) :
    (erasuresOf n erased).length ≤ erased.card := by
  have hnodup : (erasuresOf n erased).Nodup := nodup_range.filter _
  rw [← toFinset_card_of_nodup hnodup]
  exact Finset.card_le_card fun i hi => (mem_erasuresOf.1 (mem_toFinset.1 hi)).2

/-- **The buffers of `isa_decode`.** -/
theorem assignBuffers_eq (hcard : erased.card ≤ m) :
    assignBuffers k m (erasuresOf (k + m) erased) (range (k + m)) {} =
      { source := sources k (k + m) (erasuresOf (k + m) erased)
        target := erasuresOf (k + m) erased } := by
  have hle := length_erasuresOf_le (k + m) erased
  rw [assignBuffers_spec (by omega) (zero_le _)
    (by rw [filter_mem_erasuresOf]; exact zero_add _), filter_mem_erasuresOf]
  rfl

/-- Enough chunks are at hand. -/
theorem le_length_filter (hcard : erased.card ≤ m) :
    k ≤ ((range (k + m)).filter (· ∉ erasuresOf (k + m) erased)).length := by
  have hle := length_erasuresOf_le (k + m) erased
  have hsplit := length_eq_length_filter_add (l := range (k + m))
    (fun i => decide (i ∈ erasuresOf (k + m) erased))
  rw [filter_mem_erasuresOf, length_range] at hsplit
  have hnot : (range (k + m)).filter (fun i => !decide (i ∈ erasuresOf (k + m) erased)) =
      (range (k + m)).filter (· ∉ erasuresOf (k + m) erased) := by simp
  rw [hnot] at hsplit
  omega

/-! ## Rows -/

/-- The inner loop stops at the next chunk that is not erased, or when it is out of turns. -/
theorem skipErased_spec (erasures : List ℕ) (fuel r : ℕ) :
    ∃ n ≤ fuel, skipErased erasures fuel r = r + n ∧ (∀ x, r ≤ x → x < r + n → x ∈ erasures) ∧
      (r + n ∈ erasures → n = fuel) := by
  induction fuel generalizing r with
  | zero => exact ⟨0, le_rfl, rfl, fun x _ _ => by omega, fun _ => rfl⟩
  | succ fuel ih =>
    rw [skipErased]
    by_cases hr : r ∈ erasures
    · obtain ⟨n, hn, heq, hpassed, hstop⟩ := ih (r + 1)
      rw [if_pos hr]
      refine ⟨n + 1, by omega, by omega, fun x hx hlt => ?_, fun h => ?_⟩
      · rcases eq_or_lt_of_le hx with rfl | hx
        · exact hr
        · exact hpassed x hx (by omega)
      · rw [hstop (by rwa [add_assoc, add_comm 1])]
    · rw [if_neg hr]
      exact ⟨0, zero_le _, rfl, fun x _ _ => by omega, fun h => absurd h hr⟩

/-- There are enough turns: more numbers in a row than there are erased chunks are not all
erased. -/
theorem skipErased_eq (erasures : List ℕ) (r : ℕ) :
    ∃ n, skipErased erasures erasures.length r = r + n ∧ r + n ∉ erasures ∧
      ∀ x, r ≤ x → x < r + n → x ∈ erasures := by
  obtain ⟨n, -, heq, hpassed, hstop⟩ := skipErased_spec erasures erasures.length r
  refine ⟨n, heq, fun hmem => ?_, hpassed⟩
  have hn := hstop hmem
  have hsub : range' r (n + 1) ⊆ erasures := by
    intro x hx
    rw [mem_range'_1] at hx
    rcases lt_or_ge x (r + n) with hlt | hge
    · exact hpassed x hx.1 hlt
    · rwa [show x = r + n by omega]
  have hle := ((nodup_range').subperm hsub).length_le
  rw [length_range'] at hle
  omega

/-- `decode_index` is the beginning of the list of all chunks that are not erased. -/
theorem decodeIndex_eq_take {n r len : ℕ}
    (hlen : n ≤ ((range' r len).filter (· ∉ erasures)).length) :
    decodeIndex erasures n r = ((range' r len).filter (· ∉ erasures)).take n := by
  induction n generalizing r len with
  | zero => rfl
  | succ n ih =>
    obtain ⟨skip, heq, hkept, hpassed⟩ := skipErased_eq erasures r
    have herased : ∀ l ≤ skip, (range' r l).filter (· ∉ erasures) = [] := by
      intro l hl
      refine filter_eq_nil_iff.2 fun x hx => ?_
      rw [mem_range'_1] at hx
      simpa using hpassed x hx.1 (by omega)
    have hlt : skip < len := by
      by_contra hge
      rw [herased len (by omega)] at hlen
      exact absurd hlen (by simp)
    have hsplit : range' r len =
        range' r skip ++ (r + skip) :: range' (r + skip + 1) (len - skip - 1) := by
      rw [← List.range'_succ, show len - skip - 1 + 1 = len - skip by omega,
        List.range'_append_1, Nat.add_sub_cancel' hlt.le]
    have hfilter : (range' r len).filter (· ∉ erasures) =
        (r + skip) :: (range' (r + skip + 1) (len - skip - 1)).filter (· ∉ erasures) := by
      rw [hsplit, filter_append, herased skip le_rfl, nil_append,
        filter_cons_of_pos (by simpa using hkept)]
    rw [hfilter, length_cons] at hlen
    rw [decodeIndex, heq, hfilter, take_succ_cons, ← ih (by omega)]

/-- **The rows that are inverted are those of the chunks that are read.** -/
theorem decodeIndex_eq (hcard : erased.card ≤ m) :
    decodeIndex (erasuresOf (k + m) erased) k 0 =
      sources k (k + m) (erasuresOf (k + m) erased) := by
  have hlen := le_length_filter (k := k) hcard
  rw [range_eq_range'] at hlen
  rw [sources, range_eq_range', decodeIndex_eq_take hlen]

theorem length_sources (hcard : erased.card ≤ m) :
    (sources k (k + m) (erasuresOf (k + m) erased)).length = k := by
  rw [sources, length_take, min_eq_left (le_length_filter hcard)]

theorem mem_sources {n : ℕ} (h : i ∈ sources k n erasures) : i < n ∧ i ∉ erasures := by
  simpa using mem_of_mem_take h

/-! ## Targets -/

variable (chunks : ℕ → Region)

@[simp] theorem store_self (i : ℕ) (bytes : Buffer) :
    (store chunks i bytes i).bytes = bytes := by
  rw [store, update_self]

@[simp] theorem store_of_ne {j : ℕ} (bytes : Buffer) (h : j ≠ i) :
    store chunks i bytes j = chunks j :=
  update_of_ne h ..

/-- What is stored in several chunks. -/
theorem storeAll_map (ids : List ℕ) (f : ℕ → Buffer) (i : ℕ) : storeAll chunks ids (ids.map f) i =
      if i ∈ ids then { chunks i with bytes := f i } else chunks i := by
  unfold storeAll
  induction ids generalizing chunks with
  | nil => rfl
  | cons a ids ih =>
    rw [map_cons, zip_cons_cons, foldl_cons, ih]
    by_cases hi : i ∈ ids
    · rw [if_pos hi, if_pos (mem_cons_of_mem _ hi)]
      by_cases ha : i = a
      · rw [ha, store, update_self]
      · rw [store, update_of_ne ha]
    · rw [if_neg hi]
      by_cases ha : i = a
      · rw [if_pos (mem_cons.2 (.inl ha)), ha, store, update_self]
      · rw [if_neg (by simp [ha, hi]), store, update_of_ne ha]

end Ceph.Isa
