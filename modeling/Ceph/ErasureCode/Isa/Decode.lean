import Ceph.ErasureCode.Isa.Recover
import Ceph.Lib.LinearSystem

/-!
# The ISA plugin: the two ways of decoding

What `isa_encode` makes of a stripe, and that each of the two computations `isa_decode`
chooses from gives back the erased chunks.

* `byteAt_withParities` — a chunk of an encoded stripe is its row of the generator
  matrix times the data.
* `recoverTable_eq` — **the matrix way**, for every table that begins with the rows
  computed from an inverse.
* `recoverXor_eq` — **the XOR way**, for a single chunk of those that add up to zero.
-/

namespace Ceph.Isa

open Finset Option

/-! ## Bytes -/

/-- Byte `x` of chunk `i`. -/
def byteAt (chunks : ℕ → Region) (x i : ℕ) : Byte := (chunks i).bytes.getD x 0

theorem buffer_ext {a b : Buffer} {n : ℕ} (ha : a.length = n) (hb : b.length = n)
    (h : ∀ x < n, a.getD x 0 = b.getD x 0) : a = b := by
  refine List.ext_getElem (ha.trans hb.symm) fun x hx hx' => ?_
  rw [← List.getD_eq_getElem _ 0 hx, ← List.getD_eq_getElem _ 0 hx']
  exact h x (ha ▸ hx)

/-- `region_xor` on a list of sources. -/
theorem exists_regionXor {sse2 : Bool} {src : List Region} {parity : Region} {size : ℕ}
    (hne : src ≠ []) (hparity : parity.bytes.length = size)
    (hsrc : ∀ r ∈ src, r.bytes.length = size)
    (hfit : size ≠ 0 → UsesSse2 sse2 src parity → src.length ≤ vbufLength) :
    ∃ bytes, regionXor sse2 src parity size = some bytes ∧ bytes.length = size ∧
      ∀ x < size, bytes.getD x 0 = (src.map fun r => r.bytes.getD x 0).sum := by
  obtain ⟨s, rest, rfl⟩ := List.exists_cons_of_ne_nil hne
  obtain ⟨hs, hrest⟩ := List.forall_mem_cons.1 hsrc
  have hbytes : ∀ b ∈ rest.map (·.bytes), b.length = size := by simpa using hrest
  refine ⟨_, regionXor_eq (List.forall_mem_cons.2 ⟨hparity, hsrc⟩) hfit,
    length_xorRegions hs hbytes, fun x hx => ?_⟩
  rw [List.getD_eq_getElem?_getD, getElem?_xorRegions hs hbytes hx, List.map_cons, List.map_map]
  rfl

@[simp] theorem length_dotProduct (len : ℕ) (coeff : List Byte) (src : List Buffer) :
    (dotProduct len coeff src).length = len := by
  simp [dotProduct]

/-- One coefficient for each source. -/
theorem getD_dotProduct {len k x : ℕ} (a : Fin k → Byte) {ids : List ℕ} (f : ℕ → Buffer)
    (hids : ids.length = k) (hx : x < len) :
    (dotProduct len ((List.finRange k).map a) (ids.map f)).getD x 0 =
      ∑ i : Fin k, a i * (f (ids.getD i 0)).getD x 0 := by
  rw [dotProduct, List.getD_eq_getElem _ _ (by simpa using hx), List.getElem_map,
    List.getElem_range, Fin.sum_univ_def]
  congr 1
  refine List.ext_getElem (by simp [hids]) fun i hi hi' => ?_
  rw [List.length_map, List.length_finRange] at hi'
  simp [List.getD_eq_getElem?_getD, List.getElem?_eq_getElem (hids.symm ▸ hi')]

/-! ## Encoding -/

section

variable {lib : IsaL} {t : EMatrix} {k m : ℕ} {sse2 : Bool} {stripe : ℕ → Region} {blocksize : ℕ}

/-- The stripe with the parities of the generator matrix. -/
def withParities (lib : IsaL) (t : EMatrix) (k m : ℕ) (stripe : ℕ → Region) (blocksize : ℕ) :
    ℕ → Region := fun i =>
  if i ∈ (List.range m).map (k + ·) then
    { stripe i with
      bytes := dotProduct blocksize ((List.finRange k).map fun j : Fin k => lib.genMatrix t k i j)
        ((List.range k).map fun j => (stripe j).bytes) }
  else stripe i

theorem map_range_genMatrix (lib : IsaL) (t : EMatrix) (k i : ℕ) :
    (List.range k).map (lib.genMatrix t k i) =
      (List.finRange k).map fun j : Fin k => lib.genMatrix t k i j := by
  rw [← List.map_coe_finRange_eq_range, List.map_map]
  rfl

theorem isaEncode_of_ne_one (hm : m ≠ 1) :
    isaEncode lib (Codec.ofParams lib t k m) sse2 stripe blocksize =
      some (withParities lib t k m stripe blocksize) := by
  have hdata : lib.ecEncodeData blocksize k m (Codec.ofParams lib t k m).encodeTbls
      (((List.range k).map stripe).map (·.bytes)) = some (((List.range m).map (k + ·)).map fun i =>
          dotProduct blocksize ((List.finRange k).map fun j : Fin k => lib.genMatrix t k i j)
            ((List.range k).map fun j => (stripe j).bytes)) := by
    have hrows : ∀ r ∈ (List.range m).map fun i => (List.range k).map (lib.genMatrix t k (k + i)),
        r.length = k := by simp
    rw [List.map_map, List.map_map]
    have htable : lib.ecEncodeData blocksize k _ (Codec.ofParams lib t k m).encodeTbls
        ((List.range k).map fun j => (stripe j).bytes) = _ :=
      lib.encode_data hrows (lib.init_tables _ _)
    rw [List.length_map, List.length_range, List.map_map] at htable
    refine htable.trans ?_
    simp only [Function.comp_def, map_range_genMatrix]
  have hne : (Codec.ofParams lib t k m).m ≠ 1 := hm
  simp only [isaEncode, if_neg hne]
  refine (congrArg (Option.map _) hdata).trans ?_
  rw [map_some, some_inj]
  funext i
  exact storeAll_map ..

theorem withParities_of_lt {i : ℕ} (hi : i < k) :
    withParities lib t k m stripe blocksize i = stripe i := by
  rw [withParities, if_neg]
  simp only [List.mem_map, List.mem_range, not_exists, not_and]
  omega

/-- Every chunk of an encoded stripe is its row of the generator matrix times the data. -/
theorem byteAt_withParities {x i : ℕ} (hi : i < k + m) (hx : x < blocksize) :
    byteAt (withParities lib t k m stripe blocksize) x i =
      ∑ j : Fin k, lib.genMatrix t k i j * byteAt stripe x j := by
  by_cases hik : i < k
  · rw [byteAt, withParities_of_lt hik]
    have hterm : ∀ j : Fin k, lib.genMatrix t k i j * byteAt stripe x j =
        if (⟨i, hik⟩ : Fin k) = j then byteAt stripe x j else 0 := by
      intro j
      rw [lib.systematic t k i j hik j.2]
      simp only [Fin.ext_iff]
      split_ifs with hij
      · rw [one_mul]
      · rw [zero_mul]
    rw [sum_congr rfl fun j _ => hterm j, sum_ite_eq, if_pos (mem_univ _)]
    rfl
  · rw [byteAt, withParities, if_pos (List.mem_map.2 ⟨i - k, by simp; omega, by omega⟩),
      getD_dotProduct _ _ (List.length_range) hx]
    refine sum_congr rfl fun j _ => ?_
    rw [List.getD_eq_getElem (List.range k) 0 (by simp), List.getElem_range]
    rfl

theorem length_withParities (hlen : ∀ i < k + m, (stripe i).bytes.length = blocksize) {i : ℕ}
    (hi : i < k + m) : (withParities lib t k m stripe blocksize i).bytes.length = blocksize := by
  rw [withParities]
  split_ifs
  · exact length_dotProduct ..
  · exact hlen i hi

end

/-! ## Decoding with a table -/

/-- The chunks `isa_decode` works on: those at hand are as they were encoded, the erased ones
hold whatever their new buffers hold. -/
def received (erased : Finset ℕ) (encoded buffers : ℕ → Region) : ℕ → Region := fun i =>
  ⟨(buffers i).addr, if i ∈ erased then (buffers i).bytes else (encoded i).bytes⟩

/-- `data` are the bytes of the first chunks, and chunk `i` is its row of the coefficients times
these. -/
structure Encodes (c : Codec) (blocksize : ℕ) (data : ℕ → ℕ → Byte) (encoded : ℕ → Region) (i : ℕ) :
    Prop where
  length : (encoded i).bytes.length = blocksize
  byte : ∀ x < blocksize, byteAt encoded x i = ∑ j : Fin c.k, c.encodeCoeff i j * data x j
  systematic : i < c.k → ∀ x < blocksize, byteAt encoded x i = data x i

variable {e : ℕ}

section

variable {c : Codec} {encoded buffers : ℕ → Region} {data : ℕ → ℕ → Byte} {blocksize : ℕ}

theorem length_decodeRow (c : Codec) (d : Matrix (Fin c.k) (Fin c.k) Byte) (e : ℕ) :
    (decodeRow c d e).length = c.k := by
  simp [decodeRow]

variable {d : Matrix (Fin c.k) (Fin c.k) Byte}

/-- A row for the inverse of the rows that are read gives back its chunk. -/
theorem dotProduct_decodeRow {index : List ℕ} (hd : d * survivorMatrix c index = 1)
    (hindex : index.length = c.k) (hread : ∀ i ∈ index, Encodes c blocksize data encoded i)
    (he : Encodes c blocksize data encoded e) :
    dotProduct blocksize (decodeRow c d e) (index.map fun i => (encoded i).bytes) =
      (encoded e).bytes := by
  refine buffer_ext (length_dotProduct ..) he.length fun x hx => ?_
  have hy : ∀ i : Fin c.k, byteAt encoded x (index.getD i 0) =
      ∑ j : Fin c.k, survivorMatrix c index i j * data x j := by
    intro i
    refine (hread _ ?_).byte x hx
    rw [List.getD_eq_getElem _ _ (hindex.symm ▸ i.2)]
    exact List.getElem_mem _
  refine (getD_dotProduct _ _ hindex hx).trans (Eq.symm ?_)
  by_cases hek : e < c.k
  · simp only [dif_pos hek]
    exact (he.systematic hek x hx).trans (LinearSystem.eq_sum_of_inverse hd hy ⟨e, hek⟩)
  · simp only [dif_neg hek, ← Fin.sum_univ_def]
    exact (he.byte x hx).trans (LinearSystem.sum_eq_of_inverse hd hy fun j => c.encodeCoeff e j)

/-- **A table that begins with the rows for the inverse rebuilds the erased chunks.** -/
theorem recoverTable_eq {index erasures : List ℕ} {tbls : Table} {chunks : ℕ → Region}
    (hd : d * survivorMatrix c index = 1) (hindex : index.length = c.k)
    (htbls : (erasures.map (decodeRow c d)).flatten.map some <+: tbls)
    (hchunks : ∀ i ∈ index, (chunks i).bytes = (encoded i).bytes)
    (hcode : ∀ i, i ∈ index ∨ i ∈ erasures → Encodes c blocksize data encoded i) :
    ∃ out, recoverTable lib c erasures.length tbls ⟨index, erasures⟩ chunks blocksize = some out ∧
      ∀ i ∈ erasures, (out i).bytes = (encoded i).bytes := by
  have hrows : ∀ r ∈ erasures.map (decodeRow c d), r.length = c.k := by
    simpa using fun e _ => length_decodeRow c d e
  have hdata : lib.ecEncodeData blocksize c.k _ tbls (index.map fun i => (chunks i).bytes) = _ :=
    lib.encode_data hrows htbls
  rw [List.length_map, List.map_map] at hdata
  have hsource : pointers index c.k = some index := by
    rw [pointers, if_pos hindex.ge, List.take_of_length_le hindex.le]
  have htarget : pointers erasures erasures.length = some erasures := by
    rw [pointers, if_pos le_rfl, List.take_length]
  refine ⟨storeAll chunks erasures (erasures.map fun e =>
    dotProduct blocksize (decodeRow c d e) (index.map fun i => (chunks i).bytes)), ?_, ?_⟩
  · simp only [recoverTable, hsource, htarget, bind_eq_bind, bind_some, hdata]
    rfl
  · intro i hi
    rw [storeAll_map, if_pos hi, List.map_congr_left hchunks]
    exact dotProduct_decodeRow hd hindex (fun i hi => hcode i (.inl hi)) (hcode i (.inr hi))

end

/-! ## Decoding with XOR -/

section

variable {sse2 : Bool} {k blocksize : ℕ} {chunks encoded : ℕ → Region}

/-- In a word that adds up to zero each entry is the sum of the others. -/
theorem sum_filter_ne {v : ℕ → Byte} (hv : v k = ∑ j : Fin k, v j) (he : e < k + 1) :
    (((List.range (k + 1)).filter (· ≠ e)).map v).sum = v e := by
  have hzero : ∑ i ∈ range (k + 1), v i = 0 := by
    rw [sum_range_succ, sum_range, ← hv, BinaryField.add_self]
  have hothers : (((List.range (k + 1)).filter (· ≠ e)).map v).sum =
      ∑ i ∈ (range (k + 1)).erase e, v i := by
    rw [← List.sum_toFinset _ (List.nodup_range.filter _)]
    refine sum_congr (Finset.ext fun i => ?_) fun _ _ => rfl
    simp [and_comm]
  rw [hothers]
  have hall := add_sum_erase (range (k + 1)) v (mem_range.2 he)
  rw [hzero, BinaryField.add_eq_zero_iff] at hall
  exact hall.symm

theorem length_filter_ne (he : e < k + 1) : ((List.range (k + 1)).filter (· ≠ e)).length = k := by
  have hcount :=
    List.length_eq_length_filter_add (l := List.range (k + 1)) (fun i => decide (i ≠ e))
  have hcongr : (List.range (k + 1)).filter (fun i => !decide (i ≠ e)) =
      (List.range (k + 1)).filter (· == e) := List.filter_congr fun i _ => by simp [beq_eq_decide]
  have hone : ((List.range (k + 1)).filter (· == e)).length = 1 := by
    rw [← List.countP_eq_length_filter]
    exact List.count_eq_one_of_mem List.nodup_range (List.mem_range.2 he)
  rw [List.length_range, hcongr] at hcount
  omega

/-- A single erased chunk among the first `k + 1`: the others of these are read. -/
theorem sources_singleton {m : ℕ} (hm : 1 ≤ m) (he : e < k + 1) :
    sources k (k + m) [e] = (List.range (k + 1)).filter (· ≠ e) := by
  have hsplit : List.range (k + m) = List.range (k + 1) ++ List.range' (k + 1) (m - 1) := by
    have happend := @List.range'_append_1 0 (k + 1) (m - 1)
    rw [Nat.zero_add] at happend
    rw [List.range_eq_range', List.range_eq_range', happend]
    congr 1
    omega
  have hne : ∀ l : List ℕ, l.filter (· ∉ [e]) = l.filter (· ≠ e) := fun l =>
    List.filter_congr fun i _ => by simp
  rw [sources, hne, hsplit, List.filter_append, List.take_left' (length_filter_ne he)]

/-- **XOR rebuilds a chunk of a word that adds up to zero.** -/
theorem recoverXor_eq {c : Codec} {m : ℕ} (hck : c.k = k) (hk : 0 < k) (hm : 1 ≤ m) (he : e < k + 1)
    (hlen : ∀ i < k + 1, (chunks i).bytes.length = blocksize ∧ (encoded i).bytes.length = blocksize)
    (hchunks : ∀ i < k + 1, i ≠ e → (chunks i).bytes = (encoded i).bytes)
    (hparity : ∀ x < blocksize, byteAt encoded x k = ∑ j : Fin k, byteAt encoded x j)
    (hfit : blocksize ≠ 0 → sse2 = true →
      (∀ i < k + 1, isAligned (chunks i).addr ecIsaVectorOpWordsize) → k ≤ vbufLength) :
    ∃ out, recoverXor c sse2 ⟨sources k (k + m) [e], [e]⟩ chunks blocksize = some out ∧
      (out e).bytes = (encoded e).bytes := by
  have hcount := length_filter_ne he
  have hmem : ∀ i ∈ (List.range (k + 1)).filter (· ≠ e), i < k + 1 ∧ i ≠ e := by simp
  have hne : ((List.range (k + 1)).filter (· ≠ e)).map chunks ≠ [] := by
    rw [Ne, List.map_eq_nil_iff, ← List.length_eq_zero_iff, hcount]
    omega
  rw [sources_singleton hm he]
  obtain ⟨bytes, hxor, hbytes, hsum⟩ : ∃ bytes, regionXor sse2
      (((List.range (k + 1)).filter (· ≠ e)).map chunks) (chunks e) blocksize = some bytes ∧ _ :=
    exists_regionXor hne (hlen e he).1 (List.forall_mem_map.2 fun i hi => (hlen i (hmem i hi).1).1)
      (fun hsize huse => by
        rw [List.length_map, hcount]
        refine hfit hsize huse.1 fun i hi => ?_
        by_cases hie : i = e
        · exact hie ▸ huse.2.2
        · exact huse.2.1 _ (List.mem_map.2 ⟨i, by simp [hi, hie], rfl⟩))
  have hsource : pointers ((List.range (k + 1)).filter (· ≠ e)) c.k =
      some ((List.range (k + 1)).filter (· ≠ e)) := by
    rw [pointers, hck, if_pos hcount.ge, List.take_of_length_le hcount.le]
  refine ⟨store chunks e bytes, ?_, ?_⟩
  · simp only [recoverXor, hsource, List.head?_cons, bind_eq_bind, bind_some, hxor]
    rfl
  · rw [store_self]
    refine buffer_ext hbytes (hlen e he).2 fun x hx => ?_
    rw [hsum x hx, List.map_map]
    refine Eq.trans ?_ (sum_filter_ne (hparity x hx) he)
    refine congrArg List.sum (List.map_congr_left fun i hi => ?_)
    obtain ⟨hik, hie⟩ := hmem i hi
    exact congrArg (List.getD · x 0) (hchunks i hik hie)

/-- With too many chunks at aligned addresses XOR overruns `vbuf`. -/
theorem recoverXor_eq_none {c : Codec} {m : ℕ} (hck : c.k = k) (hm : 1 ≤ m) (he : e < k + 1)
    (hsize : blocksize ≠ 0) (hsse : sse2 = true)
    (haligned : ∀ i < k + 1, isAligned (chunks i).addr ecIsaVectorOpWordsize)
    (hlong : vbufLength < k) :
    recoverXor c sse2 ⟨sources k (k + m) [e], [e]⟩ chunks blocksize = none := by
  have hcount := length_filter_ne he
  have hsource : pointers ((List.range (k + 1)).filter (· ≠ e)) c.k =
      some ((List.range (k + 1)).filter (· ≠ e)) := by
    rw [pointers, hck, if_pos hcount.ge, List.take_of_length_le hcount.le]
  have hnone : regionXor sse2 (((List.range (k + 1)).filter (· ≠ e)).map chunks) (chunks e)
      blocksize = none := by
    refine regionXor_eq_none hsize ⟨hsse, ?_, haligned e he⟩
      (by rw [List.length_map, hcount]; exact hlong)
    refine List.forall_mem_map.2 fun i hi => haligned i ?_
    exact List.mem_range.1 (List.mem_of_mem_filter hi)
  rw [sources_singleton hm he]
  simp only [recoverXor, hsource, List.head?_cons, bind_eq_bind, bind_some, hnone]
  rfl

end

end Ceph.Isa
