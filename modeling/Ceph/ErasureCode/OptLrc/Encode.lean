import Ceph.Lib.Loop
import Ceph.ErasureCode.OptLrc.Codec

/-!
# The Optimal-LRC plugin: what `encode_chunks` computes

With a mapping that puts the data on the unit rows of the generator matrix, in
column order, `encode_chunks` leaves in every chunk `i` the combination of the
data chunks given by row `i`: in the coding chunks because jerasure computes it,
in the data chunks because their rows are unit rows (`encodeChunks_spec`).
-/

namespace Ceph.OptLrc

open Finset List Option Jerasure

/-- Chunk `i` of the codeword of `data`, all of whose chunks have `b` bytes. -/
def chunkOf (g : OptLRC) (k : ℕ) (data : ℕ → Buffer) (b i : ℕ) : Buffer :=
  (List.range b).map fun t => ∑ j ∈ range k, Byte.ofNat (g.entry i j) * (data j).getD t 0

@[simp] theorem length_chunkOf (g : OptLRC) (k : ℕ) (data : ℕ → Buffer) (b i : ℕ) :
    (chunkOf g k data b i).length = b := by
  simp [chunkOf]

/-- The codec uses a registered matrix, and its mapping is a permutation of the
chunks that starts with the unit rows in column order. -/
structure Mapped (c : Codec) (g : OptLRC) : Prop where
  config : configs c.n c.k c.r = some g
  perm : c.mapping.Perm (List.range c.n)
  unit : ∀ j < c.k, ∃ i, c.mapping[j]? = some i ∧ g.unitRow c.k i = some j

namespace Mapped

variable {c : Codec} {g : OptLRC}

theorem length (h : Mapped c g) : c.mapping.length = c.n := by
  rw [h.perm.length_eq, length_range]

theorem nodup (h : Mapped c g) : c.mapping.Nodup :=
  h.perm.nodup_iff.2 nodup_range

theorem mem_iff (h : Mapped c g) {i : ℕ} : i ∈ c.mapping ↔ i < c.n := by
  rw [h.perm.mem_iff, List.mem_range]

end Mapped

/-- A mapping string whose `'D'`s sit exactly on the unit rows of a registered
matrix gives a codec that is `Mapped`. -/
theorem mapped_of_string {n k r : ℕ} {g : OptLRC} (hg : configs n k r = some g) {s : List Char}
    (hlen : s.length = n) (hD : ∀ i < n, s[i]? = some 'D' ↔ (g.unitRow k i).isSome = true) :
    Mapped ⟨n, k, r, ErasureCode.toMapping s⟩ g := by
  have hmap := ErasureCode.toMapping_eq hlen hD
  have hunit : (g.unitRows n k).map (g.unitRow k) = (List.range k).map some :=
    unitRows_in_column_order _ (mem_of_configs hg)
  refine ⟨hg, ?_, ?_⟩
  · rw [hmap]
    exact filter_append_perm _ _
  · intro j hj
    have hlenU : (g.unitRows n k).length = k := by
      simpa using congrArg length hunit
    have hj' : j < (g.unitRows n k).length := by rw [hlenU]; exact hj
    refine ⟨(g.unitRows n k)[j], ?_, ?_⟩
    · rw [hmap, getElem?_append_left (by exact hj')]
      exact getElem?_eq_getElem hj'
    · have h := congrArg (fun l => l[j]?) hunit
      simpa [hj, hj'] using h

/-! ## The matrix handed to jerasure -/

theorem getElem?_flatten_of_length {l : List (List ℕ)} {k : ℕ} (hk : ∀ x ∈ l, x.length = k)
    (i j : ℕ) (hj : j < k) : l.flatten[i * k + j]? = (l[i]?).bind (·[j]?) := by
  induction l generalizing i with
  | nil => simp
  | cons x l ih =>
    have hx : x.length = k := hk x mem_cons_self
    cases i with
    | zero =>
      rw [flatten_cons, zero_mul, zero_add, getElem?_append_left (by omega)]
      simp
    | succ i =>
      rw [flatten_cons, getElem?_append_right (by rw [hx, add_mul, one_mul]; omega),
        show (i + 1) * k + j - x.length = i * k + j by rw [hx, add_mul, one_mul]; omega,
        ih (fun y hy => hk y (mem_cons_of_mem _ hy))]
      simp

theorem getElem?_codingMatrix (c : Codec) (g : OptLRC) {i j dst : ℕ}
    (hdst : (c.mapping.drop c.k)[i]? = some dst) (hj : j < c.k) :
    (codingMatrix c g)[i * c.k + j]? = some (g.entry dst j) := by
  rw [codingMatrix, getElem?_flatten_of_length ?_ i j hj]
  · rw [getElem?_map, hdst]
    simp [hj]
  · intro x hx
    obtain ⟨y, -, rfl⟩ := List.mem_map.1 hx
    simp

/-! ## The encoding loop -/

/-- The data chunks, in column order. -/
def dataOf (c : Codec) (bufs : ChunkMap) (j : ℕ) : Buffer := bufs.at (c.mapping.getD j 0)

section

variable {c : Codec} {g : OptLRC} (h : Mapped c g)

include h

/-- The data chunks are where `dataOf` says, and coding chunks are elsewhere. -/
theorem Mapped.data (bufs : ChunkMap) {j : ℕ} (hj : j < c.k) :
    ∃ src, (c.mapping.take c.k)[j]? = some src ∧ src < c.n ∧
      src ∉ c.mapping.drop c.k ∧ g.unitRow c.k src = some j ∧ dataOf c bufs j = bufs.at src := by
  obtain ⟨src, hsrc, hunit⟩ := h.unit j hj
  have htake : (c.mapping.take c.k)[j]? = some src := by
    rw [getElem?_take_of_lt hj, hsrc]
  have hmem : src ∈ c.mapping.take c.k := mem_of_getElem? htake
  have hdisj : List.Disjoint (c.mapping.take c.k) (c.mapping.drop c.k) :=
    disjoint_take_drop h.nodup le_rfl
  refine ⟨src, htake, h.mem_iff.1 (mem_of_mem_take hmem), fun hc => hdisj hmem hc, hunit, ?_⟩
  rw [dataOf, getD_eq_getElem?_getD, hsrc, getD_some]

/-- jerasure leaves the codeword in the coding chunks and touches no other. -/
theorem jerasureMatrixEncode_spec [Jerasure] {bufs : ChunkMap} {b : ℕ}
    (hlen : ∀ i < c.n, (bufs.at i).length = b) :
    ∃ out, jerasureMatrixEncode c.k (c.n - c.k) (codingMatrix c g) (c.mapping.take c.k)
        (c.mapping.drop c.k) b bufs = some out ∧
      ∀ i, out i = if i ∈ c.mapping.drop c.k then some (chunkOf g c.k (dataOf c bufs) b i)
        else bufs i := by
  have hk : c.k ≤ c.mapping.length := by
    rcases Nat.eq_zero_or_pos c.k with hzero | hpos
    · omega
    · obtain ⟨i, hi, -⟩ := h.unit (c.k - 1) (by omega)
      have := (List.getElem?_eq_some_iff.1 hi).1
      omega
  obtain ⟨out, hout, hcoded, hother⟩ := jerasureMatrixEncode_eq (codingMatrix c g)
    (length_take_of_le hk)
    (show (c.mapping.drop c.k).length = c.n - c.k by rw [length_drop, h.length])
    (by rw [take_append_drop]; exact h.nodup)
    (by rw [take_append_drop]; exact fun i hi => hlen i (h.mem_iff.1 hi))
  refine ⟨out, hout, fun i => ?_⟩
  by_cases hi : i ∈ c.mapping.drop c.k
  · obtain ⟨s, hs, rfl⟩ := getElem_of_mem hi
    have hdst := getElem?_eq_getElem hs
    rw [if_pos hi, hcoded s _ hdst]
    refine congrArg some (List.map_congr_left fun t _ => Finset.sum_congr rfl fun j hj => ?_)
    have hj := Finset.mem_range.1 hj
    have hentry : (codingMatrix c g).getD (s * c.k + j) 0 = g.entry (c.mapping.drop c.k)[s] j := by
      rw [getD_eq_getElem?_getD, getElem?_codingMatrix c g hdst hj, getD_some]
    have hsrc : (c.mapping.take c.k).getD j 0 = c.mapping.getD j 0 := by
      rw [getD_eq_getElem?_getD, getElem?_take_of_lt hj, getD_eq_getElem?_getD]
    rw [hentry, hsrc, dataOf]
  · rw [if_neg hi, hother i hi]

end

/-- The chunk of a unit row is the data chunk of its column. -/
theorem chunkOf_unitRow {g : OptLRC} {k i j b : ℕ} {data : ℕ → Buffer}
    (hunit : g.unitRow k i = some j) (hlen : (data j).length = b) :
    chunkOf g k data b i = data j := by
  obtain ⟨hj, hrow⟩ := entry_of_unitRow hunit
  have hone : Byte.ofNat 1 = 1 := rfl
  have hzero : Byte.ofNat 0 = 0 := rfl
  refine ext_getElem (by simp [hlen]) fun t ht ht' => ?_
  simp only [chunkOf, getElem_map, getElem_range]
  rw [Finset.sum_eq_single j]
  · rw [hrow j hj, if_pos rfl, hone, one_mul,
      getD_eq_getElem?_getD, getElem?_eq_getElem ht', getD_some]
  · intro j' hj' hne
    rw [hrow j' (Finset.mem_range.1 hj'), if_neg hne, hzero, zero_mul]
  · intro hc
    exact absurd (Finset.mem_range.2 hj) hc

/-- **What `encode_chunks` computes.**  If all `n` chunks have room for `b` bytes
and the data chunks are filled in, then afterwards every chunk `i` is row `i` of
the generator matrix applied to the data. -/
theorem encodeChunks_spec [Jerasure] {c : Codec} {g : OptLRC} (h : Mapped c g) (hn : 0 < c.n)
    {encoded : ChunkMap} {b : ℕ}
    (hlen : ∀ i < c.n, ∃ buf, encoded i = some buf ∧ buf.length = b) :
    ∃ out, encodeChunks c encoded = some out ∧
      ∀ i < c.n, out i = some (chunkOf g c.k (dataOf c encoded) b i) := by
  have hpad : (fun i => if i ∈ c.mapping then some (encoded.at i) else encoded i) = encoded := by
    funext i
    by_cases hi : i ∈ c.mapping
    · obtain ⟨buf, hbuf, -⟩ := hlen i (h.mem_iff.1 hi)
      rw [if_pos hi, ChunkMap.at, hbuf]
      rfl
    · rw [if_neg hi]
  have hat : ∀ i < c.n, (encoded.at i).length = b := by
    intro i hi
    obtain ⟨buf, hbuf, hl⟩ := hlen i hi
    rw [ChunkMap.at_some hbuf, hl]
  obtain ⟨first, hfirst, hfl⟩ : ∃ first, encoded.begin c.n = some first ∧ first.length = b := by
    obtain ⟨first, hfirst⟩ := isSome_iff_exists.1 (ChunkMap.begin_isSome (m := encoded) hn
      (by obtain ⟨buf, hbuf, -⟩ := hlen 0 hn; rw [hbuf]; rfl))
    obtain ⟨i, hi, hbuf⟩ := ChunkMap.exists_of_begin_eq hfirst
    obtain ⟨buf, hbuf', hl⟩ := hlen i hi
    rw [hbuf, some.injEq] at hbuf'
    exact ⟨first, hfirst, hbuf' ▸ hl⟩
  obtain ⟨out, hout, hspec⟩ := jerasureMatrixEncode_spec h hat
  refine ⟨out, ?_, fun i hi => ?_⟩
  · rw [encodeChunks, if_neg (by rw [h.length]; omega), hpad]
    simp only [bind_eq_bind, bind_some, hfirst, hfl, optlrcEncode, h.config]
    exact hout
  · rw [hspec i]
    by_cases hmem : i ∈ c.mapping.drop c.k
    · rw [if_pos hmem]
    -- a chunk that is not a coding chunk is the data chunk of some column
    have htake : i ∈ c.mapping.take c.k := by
      have := h.mem_iff.2 hi
      rw [← take_append_drop c.k c.mapping, mem_append] at this
      exact this.resolve_right hmem
    obtain ⟨j, hj, hji⟩ := getElem_of_mem htake
    have hjk : j < c.k := by
      rw [length_take] at hj
      omega
    obtain ⟨src, hsrc, hsn, -, hunit, hd⟩ := h.data encoded hjk
    have hsi : src = i := by
      rw [getElem?_eq_getElem hj, some.injEq] at hsrc
      rw [← hsrc, hji]
    subst hsi
    obtain ⟨buf, hbuf, -⟩ := hlen src hsn
    rw [if_neg hmem, chunkOf_unitRow hunit (by rw [hd]; exact hat src hsn), hd,
      ChunkMap.at_some hbuf, hbuf]

end Ceph.OptLrc
