import Ceph.Lib.BinaryField

/-!
# Erasure codes: chunks, buffers and the generic decode

What every plugin of `src/erasure-code` shares: the bytes of a chunk, the map
from chunk ids to chunks, the two memory operations the plugins use on them,
and `ErasureCode::decode`, which prepares the output map and hands it to the
plugin's own `decode_chunks`.

A chunk that is absent is `none`.  A function that would leave defined
behaviour (read a slot that was never filled, run past a buffer) returns
`none`, so that "the code returns" is part of what is proved about it.
-/

namespace Ceph

open List

/-- A byte, as an element of `GF(2 ^ 8)` with the reduction polynomial `0x11d`
that gf-complete uses for words of 8 bits. -/
abbrev Byte : Type := BinaryField 8 0x1d#8

/-- The byte of an entry of a coding matrix. -/
def Byte.ofNat (a : ℕ) : Byte := ⟨BitVec.ofNat 8 a⟩

/-- A contiguous `bufferlist`. -/
abbrev Buffer : Type := List Byte

/-- `map<int, bufferlist>`, keyed by chunk id. -/
abbrev ChunkMap : Type := ℕ → Option Buffer

/-- `(*m)[i]`: a missing entry is created empty. -/
def ChunkMap.at (m : ChunkMap) (i : ℕ) : Buffer := (m i).getD []

/-- The entries of `m` whose id lies in `s`. -/
def ChunkMap.restrict (m : ChunkMap) (s : Finset ℕ) : ChunkMap :=
  fun i => if i ∈ s then m i else none

/-- `m.begin()->second` for a map whose ids are below `n`. -/
def ChunkMap.begin (m : ChunkMap) (n : ℕ) : Option Buffer := (range n).findSome? m

/-- `memcpy(dst, src, n)`. -/
def memcpy (dst src : Buffer) (n : ℕ) : Option Buffer :=
  if n ≤ dst.length ∧ n ≤ src.length then some (src.take n ++ dst.drop n) else none

/-- What the plugins use of jerasure and gf-complete, and what they rely on.  Both libraries are
submodules of the repository. -/
class Jerasure where
  /-- `galois_region_xor(src, dst, n)` -/
  galoisRegionXor : Buffer → Buffer → ℕ → Option Buffer
  /-- `jerasure_matrix_encode(k, m, 8, matrix, data, coding, size)`, with chunk ids for pointers. -/
  jerasureMatrixEncode : ℕ → ℕ → List ℕ → List ℕ → List ℕ → ℕ → ChunkMap → Option ChunkMap
  galoisRegionXor_of_length : ∀ {n : ℕ} {dst src : Buffer}, dst.length = n → src.length = n →
    galoisRegionXor src dst n = some (List.zipWith (· + ·) src dst)
  /-- Each coding chunk becomes its row of the matrix times the data, over `GF(2 ^ 8)`; the other
  chunks stay. -/
  jerasureMatrixEncode_eq : ∀ {k m : ℕ} (matrix : List ℕ) {data coding : List ℕ} {size : ℕ}
    {bufs : ChunkMap}, data.length = k → coding.length = m → (data ++ coding).Nodup →
    (∀ i ∈ data ++ coding, (bufs.at i).length = size) →
    ∃ out, jerasureMatrixEncode k m matrix data coding size bufs = some out ∧
      (∀ s dst, coding[s]? = some dst → out dst = some ((List.range size).map fun t =>
        ∑ j ∈ Finset.range k, Byte.ofNat (matrix.getD (s * k + j) 0) *
          (bufs.at (data.getD j 0)).getD t 0)) ∧
      ∀ i ∉ coding, out i = bufs i

/-- `EIO`. -/
def eio : ℤ := 5

/-- `EINVAL`. -/
def einval : ℤ := 22

variable {n : ℕ}

theorem memcpy_of_length {dst src : Buffer} (hd : dst.length = n) (hs : src.length = n) :
    memcpy dst src n = some src := by
  rw [memcpy, if_pos ⟨hd.ge, hs.ge⟩, take_of_length_le hs.le, drop_of_length_le hd.le, append_nil]

variable {m : ChunkMap}

namespace ChunkMap

@[simp] theorem at_some {i : ℕ} {b : Buffer} (h : m i = some b) :
    m.at i = b := by
  rw [ChunkMap.at, h]
  rfl

theorem begin_isSome {i : ℕ} (hi : i < n) (h : (m i).isSome) : (m.begin n).isSome := by
  rw [begin, List.findSome?_isSome_iff]
  exact ⟨i, mem_range.2 hi, h⟩

theorem exists_of_begin_eq {b : Buffer} (h : m.begin n = some b) : ∃ i < n, m i = some b := by
  obtain ⟨i, hi, hb⟩ := exists_of_findSome?_eq_some h
  exact ⟨i, mem_range.1 hi, hb⟩

/-- If every chunk of the map has length `b`, so has the first one. -/
theorem length_begin {b : ℕ} (hlen : ∀ i buf, m i = some buf → buf.length = b) {i : ℕ}
    (hi : i < n) (h : (m i).isSome) :
    ∃ buf, m.begin n = some buf ∧ buf.length = b := by
  obtain ⟨buf, hbuf⟩ := Option.isSome_iff_exists.1 (begin_isSome hi h)
  obtain ⟨j, -, hj⟩ := exists_of_begin_eq hbuf
  exact ⟨buf, hbuf, hlen j buf hj⟩

end ChunkMap

namespace ErasureCode

/-- `ErasureCode::to_mapping`: the positions of the `'D'`s of the mapping string,
then the other positions. -/
def toMapping (mapping : List Char) : List ℕ :=
  ((mapping.zipIdx.filter (·.1 = 'D')).map (·.2)) ++ ((mapping.zipIdx.filter (·.1 ≠ 'D')).map (·.2))

theorem map_snd_filter_zipIdx (p : Char → Bool) (l : List Char) :
    (l.zipIdx.filter fun x => p x.1).map (·.2)
      = (range l.length).filter fun i => (l[i]?).any p := by
  induction l using List.reverseRecOn with
  | nil => rfl
  | append_singleton l a ih =>
    rw [zipIdx_append, filter_append, map_append, ih, length_append,
      length_singleton, range_succ, filter_append]
    congr 1
    · refine filter_congr fun i hi => ?_
      rw [getElem?_append_left (mem_range.1 hi)]
    · cases hp : p a <;> simp [hp]

/-- Position by position: the `'D'`s in increasing order, then the rest. -/
theorem toMapping_eq {s : List Char} {p : ℕ → Bool} (hlen : s.length = n)
    (hp : ∀ i < n, s[i]? = some 'D' ↔ p i = true) :
    toMapping s = (range n).filter p ++ (range n).filter fun i => !p i := by
  have hany : ∀ i < n, (s[i]?).any (· = 'D') = p i := by
    intro i hi
    rw [Bool.eq_iff_iff, ← hp i hi, Option.any_eq_true]
    simp
  have hnany : ∀ i < n, (s[i]?).any (· ≠ 'D') = !p i := by
    intro i hi
    rw [← hany i hi, getElem?_eq_getElem (by omega)]
    simp
  rw [toMapping, map_snd_filter_zipIdx (fun a => a = 'D'),
    map_snd_filter_zipIdx (fun a => a ≠ 'D'), hlen]
  congr 1
  · exact filter_congr fun i hi => hany i (mem_range.1 hi)
  · exact filter_congr fun i hi => hnany i (mem_range.1 hi)

/-- The `decoded` map `ErasureCode::decode` builds before it calls
`decode_chunks`: the chunks at hand, and for every other id a fresh buffer whose
bytes nobody has written (`fresh`). -/
def prepareDecoded (n : ℕ) (chunks : ChunkMap) (fresh : ℕ → Buffer) : ChunkMap :=
  fun i => if i < n then some ((chunks i).getD (fresh i)) else none

/-- `ErasureCode::decode`, over the plugin's `decode_chunks`.  `fresh` is what
`buffer::create_aligned` returns for a chunk that is not at hand. -/
def decode (n : ℕ) (decodeChunks : Finset ℕ → ChunkMap → ChunkMap → Option (ℤ × ChunkMap))
    (fresh : ℕ → Buffer) (wantToRead : Finset ℕ) (chunks : ChunkMap) :
    Option (ℤ × ChunkMap) :=
  if ∀ i ∈ wantToRead, (chunks i).isSome then
    some (0, fun i => if i ∈ wantToRead then chunks i else none)
  else
    match chunks.begin n with
    | none => none
    | some _ => decodeChunks wantToRead chunks (prepareDecoded n chunks fresh)

end ErasureCode

end Ceph
