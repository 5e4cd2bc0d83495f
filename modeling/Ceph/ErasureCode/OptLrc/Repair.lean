import Ceph.ErasureCode.OptLrc.Decode

/-!
# The Optimal-LRC plugin: does repair give back what was encoded?

`decode_chunks` computes the XOR of a local group.  That is the chunk that was
encoded exactly when the rows of the group, applied to the data, add up to zero
(`xorOf_mates_eq_chunkOf_iff`); the columns of every registered matrix cancel
over every group, except those of the last group of the matrix for
`(17, 12, 6)`.
-/

namespace Ceph.OptLrc

open Finset ErasureCode

/-! ## The syndrome of a local group -/

/-- Byte `t` of the sum of the encoded chunks of local group `grp`. -/
def syndrome (c : Codec) (g : OptLRC) (data : ℕ → Buffer) (grp t : ℕ) : Byte :=
  ∑ j ∈ range c.k, g.columnSum c.n c.r grp j * (data j).getD t 0

theorem getD_chunkOf (g : OptLRC) (k : ℕ) (data : ℕ → Buffer) {b t : ℕ} (i : ℕ) (ht : t < b) :
    (chunkOf g k data b i).getD t 0 =
      ∑ j ∈ range k, Byte.ofNat (g.entry i j) * (data j).getD t 0 := by
  simp [chunkOf, List.getD_eq_getElem?_getD, ht]

theorem sum_group_chunkOf (c : Codec) (g : OptLRC) (data : ℕ → Buffer) {b t : ℕ} (grp : ℕ)
    (ht : t < b) :
    ∑ i ∈ range c.n with c.group i = grp, (chunkOf g c.k data b i).getD t 0 =
      syndrome c g data grp t := by
  simp only [getD_chunkOf g c.k data _ ht, syndrome, OptLRC.columnSum, sum_mul]
  exact sum_comm

/-- Over the whole group, the mates of `e` and `e` itself. -/
theorem sum_group_eq_add_mates (c : Codec) {e : ℕ} (he : e < c.n) (f : ℕ → Byte) :
    ∑ i ∈ range c.n with c.group i = c.group e, f i = f e + ∑ i ∈ c.mates e, f i := by
  have hsplit : (range c.n).filter (fun i => c.group i = c.group e) = insert e (c.mates e) := by
    ext i
    rw [mem_insert, Codec.mem_mates, mem_filter, mem_range]
    constructor
    · rintro ⟨hi, hgrp⟩
      by_cases hie : i = e
      · exact .inl hie
      · exact .inr ⟨hi, hgrp, hie⟩
    · rintro (rfl | ⟨hi, hgrp, -⟩)
      · exact ⟨he, rfl⟩
      · exact ⟨hi, hgrp⟩
  rw [hsplit, sum_insert (by simp [Codec.mem_mates])]

/-- **When local repair is right.**  If the mates of `e` hold what was encoded,
their XOR is the encoded chunk `e` exactly when the syndrome of the group is
zero at every byte. -/
theorem xorOf_mates_eq_chunkOf_iff {c : Codec} {g : OptLRC} {data : ℕ → Buffer} {b e : ℕ}
    (he : e < c.n) {bufs : ChunkMap}
    (hbufs : ∀ i ∈ c.mates e, bufs.at i = chunkOf g c.k data b i) :
    xorOf bufs b (c.mates e) = chunkOf g c.k data b e ↔
      ∀ t < b, syndrome c g data (c.group e) t = 0 := by
  have hbyte : ∀ t < b, syndrome c g data (c.group e) t =
      (chunkOf g c.k data b e).getD t 0 + ∑ i ∈ c.mates e, (bufs.at i).getD t 0 := by
    intro t ht
    rw [← sum_group_chunkOf c g data (c.group e) ht, sum_group_eq_add_mates c he]
    congr 1
    exact sum_congr rfl fun i hi => by rw [hbufs i hi]
  rw [← map_getD_range (length_chunkOf g c.k data b e), xorOf, List.map_inj_left]
  simp only [List.mem_range]
  refine forall₂_congr fun t ht => ?_
  rw [hbyte t ht, BinaryField.add_eq_zero_iff]
  exact eq_comm

/-! ## Reading back a stripe -/

/-- Every chunk of a registered configuration has a mate. -/
theorem mates_nonempty {c : Codec} {g : OptLRC} (hg : configs c.n c.k c.r = some g) :
    ∀ e < c.n, (c.mates e).Nonempty := by
  intro e he
  obtain ⟨i, hi, hne, hgrp⟩ := exists_companion _ (mem_of_configs hg) e he
  exact ⟨i, Codec.mem_mates.2 ⟨hi, hgrp, hne⟩⟩

/-- An encoded stripe: every chunk is its row of the matrix applied to the data. -/
structure Stripe (c : Codec) (g : OptLRC) (data : ℕ → Buffer) (b : ℕ) (enc : ChunkMap) : Prop where
  chunk : ∀ i < c.n, enc i = some (chunkOf g c.k data b i)

theorem Stripe.length_restrict {c : Codec} {g : OptLRC} {data : ℕ → Buffer} {b : ℕ} {enc : ChunkMap}
    (h : Stripe c g data b enc) {avail : Finset ℕ} (hav : avail ⊆ range c.n) :
    ∀ i buf, enc.restrict avail i = some buf → buf.length = b := by
  intro i buf hi
  by_cases hmem : i ∈ avail
  · rw [ChunkMap.restrict, if_pos hmem, h.chunk i (mem_range.1 (hav hmem)), Option.some.injEq] at hi
    rw [← hi, length_chunkOf]
  · rw [ChunkMap.restrict, if_neg hmem] at hi
    cases hi

section ReadBack

variable {c : Codec} {g : OptLRC} {data : ℕ → Buffer} {b : ℕ} {enc : ChunkMap}
  {avail want : Finset ℕ} {fresh : ℕ → Buffer}

theorem at_prepareDecoded_of_mem (h : Stripe c g data b enc) (hav : avail ⊆ range c.n) {i : ℕ}
    (hi : i ∈ avail) :
    (prepareDecoded c.n (enc.restrict avail) fresh).at i = chunkOf g c.k data b i := by
  have hin : i < c.n := mem_range.1 (hav hi)
  rw [ChunkMap.at, prepareDecoded, if_pos hin, ChunkMap.restrict, if_pos hi, h.chunk i hin]
  rfl

theorem at_prepareDecoded_of_notMem {i : ℕ} (hin : i < c.n) (hi : i ∉ avail) :
    (prepareDecoded c.n (enc.restrict avail) fresh).at i = fresh i := by
  rw [ChunkMap.at, prepareDecoded, if_pos hin, ChunkMap.restrict, if_neg hi]
  rfl

theorem length_prepareDecoded (h : Stripe c g data b enc) (hav : avail ⊆ range c.n)
    (hfresh : ∀ i, (fresh i).length = b) :
    ∀ i < c.n, ((prepareDecoded c.n (enc.restrict avail) fresh).at i).length = b := by
  intro i hin
  by_cases hi : i ∈ avail
  · rw [at_prepareDecoded_of_mem h hav hi, length_chunkOf]
  · rw [at_prepareDecoded_of_notMem hin hi, hfresh]

/-- The wanted chunks that are not at hand. -/
theorem mem_erasedWanted_restrict (h : Stripe c g data b enc) (hav : avail ⊆ range c.n) {i : ℕ} :
    i ∈ erasedWanted c want (enc.restrict avail) ↔ i < c.n ∧ i ∉ avail ∧ i ∈ want := by
  rw [mem_erasedWanted, ChunkMap.restrict]
  by_cases hi : i ∈ avail
  · simp [hi, h.chunk i (mem_range.1 (hav hi))]
  · simp [hi]

/-- What `decode_chunks` returns for a stripe of which only `avail` is at hand,
when the wanted erasures lie in different groups. -/
theorem decodeChunks_stripe [Jerasure] (want : Finset ℕ) (fresh : ℕ → Buffer)
    (hg : configs c.n c.k c.r = some g) (h : Stripe c g data b enc)
    (hav : avail ⊆ range c.n) (hne : avail.Nonempty) (hfresh : ∀ i, (fresh i).length = b)
    (hdist : ∀ e < c.n, e ∉ avail → e ∈ want → ∀ e' < c.n, e' ∉ avail → e' ∈ want →
      c.group e = c.group e' → e = e') :
    ∃ dec, decodeChunks c want (enc.restrict avail)
        (prepareDecoded c.n (enc.restrict avail) fresh) = some (0, dec) ∧
      (∀ i ∈ avail, dec i = enc i) ∧ ∀ i < c.n, i ∉ avail → i ∈ want → dec i =
        some (xorOf (prepareDecoded c.n (enc.restrict avail) fresh) b (c.mates i)) := by
  obtain ⟨a, ha⟩ := hne
  have han : a < c.n := mem_range.1 (hav ha)
  have hfirst : ∃ buf, (enc.restrict avail).begin c.n = some buf ∧ buf.length = b :=
    ChunkMap.length_begin (h.length_restrict hav) han (by
      rw [ChunkMap.restrict, if_pos ha, h.chunk a han]
      rfl)
  obtain ⟨dec, hrun, hdec⟩ := decodeChunks_spec hg (mates_nonempty hg) want hfirst
    (length_prepareDecoded h hav hfresh) (by
      intro e he e' he' hgrp
      obtain ⟨hen, hea, hew⟩ := (mem_erasedWanted_restrict h hav).1 he
      obtain ⟨hen', hea', hew'⟩ := (mem_erasedWanted_restrict h hav).1 he'
      exact hdist e hen hea hew e' hen' hea' hew' hgrp)
  refine ⟨dec, hrun, fun i hi => ?_, fun i hin hi hw => ?_⟩
  · have hin : i < c.n := mem_range.1 (hav hi)
    rw [hdec i, if_neg fun hc => ((mem_erasedWanted_restrict h hav).1 hc).2.1 hi, prepareDecoded,
      if_pos hin, ChunkMap.restrict, if_pos hi, h.chunk i hin]
    rfl
  · rw [hdec i, if_pos ((mem_erasedWanted_restrict h hav).2 ⟨hin, hi, hw⟩)]

/-- A wanted erasure whose mates are all at hand is read back exactly when the
syndrome of its group is zero. -/
theorem repaired_iff (h : Stripe c g data b enc) (hav : avail ⊆ range c.n) {e : ℕ} (he : e < c.n)
    (hmates : c.mates e ⊆ avail) :
    some (xorOf (prepareDecoded c.n (enc.restrict avail) fresh) b (c.mates e)) = enc e ↔
      ∀ t < b, syndrome c g data (c.group e) t = 0 := by
  rw [h.chunk e he, Option.some.injEq]
  exact xorOf_mates_eq_chunkOf_iff he fun i hi => at_prepareDecoded_of_mem h hav (hmates hi)

end ReadBack

/-! ## One erasure per local group -/

/-- What the last group of the matrix for `(17, 12, 6)` leaves of byte `t` of the
data. -/
def residue_17_12_6 (data : ℕ → Buffer) (t : ℕ) : Byte :=
  ∑ j ∈ range 12, Byte.ofNat (defect_17_12_6.getD j 0) * (data j).getD t 0

theorem syndrome_17_12_6 (mapping : List ℕ) (data : ℕ → Buffer) {grp : ℕ} (hgrp : grp < 17)
    (t : ℕ) : syndrome ⟨17, 12, 6, mapping⟩ optlrc_17_12_6 data grp t =
      if grp = 2 then residue_17_12_6 data t else 0 := by
  have hcol := fun j (hj : j ∈ range 12) => columnSum_17_12_6 grp hgrp j (mem_range.1 hj)
  rw [syndrome, sum_congr rfl fun j hj => congrArg (· * (data j).getD t 0) (hcol j hj)]
  by_cases h2 : grp = 2 <;> simp [h2, residue_17_12_6]

/-- The syndrome is zero everywhere but in the last group of `(17, 12, 6)`. -/
theorem syndrome_eq_zero_iff {c : Codec} {g : OptLRC} (hg : configs c.n c.k c.r = some g)
    (data : ℕ → Buffer) {e : ℕ} (he : e < c.n) (t : ℕ) :
    syndrome c g data (c.group e) t = 0 ↔
      ((c.n, c.k, c.r) = (17, 12, 6) → 14 ≤ e → residue_17_12_6 data t = 0) := by
  have hgrp : c.group e < c.n := lt_of_le_of_lt (Nat.div_le_self _ _) he
  by_cases hcfg : (c.n, c.k, c.r) = (17, 12, 6)
  · obtain ⟨n, k, r, mapping⟩ := c
    obtain ⟨rfl, rfl, rfl⟩ := hcfg
    obtain rfl : g = optlrc_17_12_6 := Option.some.inj (hg.symm.trans rfl)
    have hlast : e / 7 = 2 ↔ 14 ≤ e := by
      simp only at he
      omega
    rw [syndrome_17_12_6 mapping data hgrp]
    simp only [Codec.group, Nat.reduceAdd, hlast]
    by_cases h14 : 14 ≤ e <;> simp [h14]
  · refine iff_of_true (sum_eq_zero fun j hj => ?_) fun hc => absurd hc hcfg
    rw [columnSum_eq_zero _ (mem_of_configs hg) hcfg _ hgrp j (mem_range.1 hj), zero_mul]

/-- The codec a profile with these parameters and this mapping string sets up. -/
def codecOf (n k r : ℕ) (mapping : List Char) : Codec := ⟨n, k, r, toMapping mapping⟩

/-- The mapping string puts a `'D'` exactly on the unit rows of the matrix. -/
def DataOnUnitRows (g : OptLRC) (n k : ℕ) (mapping : List Char) : Prop :=
  mapping.length = n ∧ ∀ i < n, mapping[i]? = some 'D' ↔ (g.unitRow k i).isSome = true

instance (g : OptLRC) (n k : ℕ) (mapping : List Char) :
    Decidable (DataOnUnitRows g n k mapping) :=
  inferInstanceAs (Decidable (mapping.length = n ∧
    ∀ i < n, mapping[i]? = some 'D' ↔ (g.unitRow k i).isSome = true))

theorem DataOnUnitRows.mapped {g : OptLRC} {n k r : ℕ} {mapping : List Char}
    (h : DataOnUnitRows g n k mapping) (hg : configs n k r = some g) :
    Mapped (codecOf n k r mapping) g :=
  mapped_of_string hg h.1 h.2

theorem pos_of_configs {n k r : ℕ} {g : OptLRC} (hg : configs n k r = some g) : 0 < n := by
  have hall : ∀ e ∈ optLRCConfigs, 0 < e.1.1 := by decide +kernel
  exact hall _ (mem_of_configs hg)

/-- `encode_chunks` yields a stripe. -/
theorem encodeChunks_stripe [Jerasure] {c : Codec} {g : OptLRC} (h : Mapped c g)
    {encoded : ChunkMap} {b : ℕ} (hbuf : ∀ i < c.n, ∃ buf, encoded i = some buf ∧ buf.length = b) :
    ∃ enc, encodeChunks c encoded = some enc ∧ Stripe c g (dataOf c encoded) b enc := by
  obtain ⟨enc, henc, hchunk⟩ := encodeChunks_spec h (pos_of_configs h.config) hbuf
  exact ⟨enc, henc, ⟨hchunk⟩⟩

/-- **`decode_chunks` undoes `encode_chunks`, except on one matrix.**  With at
most one erasure in each local group, every wanted erasure comes back as it was
encoded exactly when the configuration is not `(17, 12, 6)`, or none of the
wanted erasures is in the last group, or the data happens to be orthogonal to
what its three rows leave. -/
theorem decodeChunks_encodeChunks_iff [Jerasure] {n k r : ℕ} {g : OptLRC}
    (hg : configs n k r = some g)
    {mapping : List Char} (hmap : DataOnUnitRows g n k mapping) {encoded : ChunkMap} {b : ℕ}
    (hbuf : ∀ i < n, ∃ buf, encoded i = some buf ∧ buf.length = b)
    {erased want : Finset ℕ} (herased : erased ⊆ range n)
    (hone : ∀ e ∈ erased, ∀ e' ∈ erased, e / (r + 1) = e' / (r + 1) → e = e')
    {fresh : ℕ → Buffer} (hfresh : ∀ i, (fresh i).length = b) :
    (∃ enc dec, encodeChunks (codecOf n k r mapping) encoded = some enc ∧
      decodeChunks (codecOf n k r mapping) want (enc.restrict (range n \ erased))
        (prepareDecoded n (enc.restrict (range n \ erased)) fresh) = some (0, dec) ∧
      ∀ i ∈ erased ∩ want, dec i = enc i) ↔
    ((n, k, r) = (17, 12, 6) → ∀ e ∈ erased ∩ want, 14 ≤ e → ∀ t < b,
      residue_17_12_6 (dataOf (codecOf n k r mapping) encoded) t = 0) := by
  set c := codecOf n k r mapping with hc
  have hM : Mapped c g := hmap.mapped hg
  have hav : range n \ erased ⊆ range c.n := sdiff_subset
  obtain ⟨enc, henc, hstripe⟩ := encodeChunks_stripe hM hbuf
  have hgone : ∀ i < n, i ∉ range n \ erased → i ∈ erased := by
    intro i hi hnot
    by_contra hne
    exact hnot (mem_sdiff.2 ⟨mem_range.2 hi, hne⟩)
  have hmates : ∀ e ∈ erased, c.mates e ⊆ range n \ erased := by
    intro e he i hi
    obtain ⟨hin, hgrp, hne⟩ := Codec.mem_mates.1 hi
    exact mem_sdiff.2 ⟨mem_range.2 hin, fun hie => hne (hone i hie e he hgrp)⟩
  have hnonempty : (range n \ erased).Nonempty := by
    have h0 : 0 < n := pos_of_configs hg
    by_cases he : 0 ∈ erased
    · obtain ⟨i, hi⟩ := mates_nonempty hM.config 0 h0
      exact ⟨i, hmates 0 he hi⟩
    · exact ⟨0, mem_sdiff.2 ⟨mem_range.2 h0, he⟩⟩
  obtain ⟨dec, hdec, -, hrep⟩ := decodeChunks_stripe want _ hM.config hstripe hav hnonempty
    hfresh (fun e he hea _ e' he' hea' _ hgrp =>
      hone e (hgone e he hea) e' (hgone e' he' hea') hgrp)
  -- each wanted erasure comes back exactly when the syndrome of its group is zero
  have heach : ∀ e ∈ erased ∩ want, (dec e = enc e ↔
      ((n, k, r) = (17, 12, 6) → 14 ≤ e → ∀ t < b, residue_17_12_6 (dataOf c encoded) t = 0)) := by
    intro e he
    obtain ⟨hee, hew⟩ := mem_inter.1 he
    have hen : e < c.n := mem_range.1 (herased hee)
    rw [hrep e hen (fun hc => (mem_sdiff.1 hc).2 hee) hew,
      repaired_iff hstripe hav hen (hmates e hee)]
    constructor
    · intro h hcfg h14 t ht
      exact (syndrome_eq_zero_iff hM.config _ hen t).1 (h t ht) hcfg h14
    · intro h t ht
      exact (syndrome_eq_zero_iff hM.config _ hen t).2 fun hcfg h14 => h hcfg h14 t ht
  constructor
  · rintro ⟨enc', dec', henc', hdec', hall⟩ hcfg e he h14
    obtain rfl : enc = enc' := Option.some.inj (henc.symm.trans henc')
    obtain rfl : dec = dec' :=
      congrArg Prod.snd (Option.some.inj (hdec.symm.trans hdec'))
    exact (heach e he).1 (hall e he) hcfg h14
  · intro h
    exact ⟨enc, dec, henc, hdec, fun e he => (heach e he).2 fun hcfg h14 => h hcfg e he h14⟩

/-- A library that does what is relied on; a pointer that was never set is not followed. -/
instance : Jerasure where
  galoisRegionXor src dst n :=
    if n ≤ dst.length ∧ n ≤ src.length then
      some (List.zipWith (· + ·) (src.take n) (dst.take n) ++ dst.drop n)
    else none
  jerasureMatrixEncode k m matrix data coding size bufs :=
    if data.length < k ∨ coding.length < m then none
    else some fun i =>
      if i ∈ coding then some ((List.range size).map fun t =>
        ∑ j ∈ Finset.range k, Byte.ofNat (matrix.getD (coding.idxOf i * k + j) 0) *
          (bufs.at (data.getD j 0)).getD t 0)
      else bufs i
  galoisRegionXor_of_length := by
    rintro n dst src rfl hs
    rw [if_pos ⟨le_rfl, hs.ge⟩, List.take_of_length_le hs.le, List.take_length, List.drop_length,
      List.append_nil]
  jerasureMatrixEncode_eq := by
    intro k m matrix data coding size bufs hdata hcoding hnodup _
    refine ⟨_, if_neg (by omega), fun s dst hdst => ?_, fun i hi => if_neg hi⟩
    obtain ⟨hs, rfl⟩ := List.getElem?_eq_some_iff.1 hdst
    rw [if_pos (List.getElem_mem hs), (List.nodup_append.1 hnodup).2.1.idxOf_getElem s hs]

/-- Chunk 4 of a stripe of the default configuration is read back. -/
theorem decodeChunks_encodeChunks_9_4_2 :
    ∃ enc dec, encodeChunks (codecOf 9 4 2 "DD_DD____".toList) (fun i => some [Byte.ofNat i]) =
        some enc ∧
      decodeChunks (codecOf 9 4 2 "DD_DD____".toList) {4, 7} (enc.restrict (range 9 \ {0, 4}))
        (prepareDecoded 9 (enc.restrict (range 9 \ {0, 4})) fun _ => [1]) = some (0, dec) ∧
      ∀ i ∈ ({0, 4} : Finset ℕ) ∩ {4, 7}, dec i = enc i :=
  (decodeChunks_encodeChunks_iff rfl (by decide +kernel) (b := 1)
    (fun i _ => ⟨_, rfl, rfl⟩) (by decide) (by decide) (fun _ => rfl)).2 fun h => by simp at h

/-- With the matrix for `(17, 12, 6)` and data chunks `1, 0, …, 0`, chunk 14 is
encoded as 196, and when it alone is lost it is read back as 172. -/
theorem decodeChunks_wrong_17_12_6 :
    ∃ enc dec, encodeChunks (codecOf 17 12 6 "DDDDDD_DDDDDD____".toList)
        (fun i => some [if i = 0 then 1 else 0]) = some enc ∧
      decodeChunks (codecOf 17 12 6 "DDDDDD_DDDDDD____".toList) {14}
        (enc.restrict (range 17 \ {14}))
        (prepareDecoded 17 (enc.restrict (range 17 \ {14})) fun _ => [0]) = some (0, dec) ∧
      enc 14 = some [Byte.ofNat 196] ∧ dec 14 = some [Byte.ofNat 172] ∧ dec 14 ≠ enc 14 := by
  have hrun : ((encodeChunks (codecOf 17 12 6 "DDDDDD_DDDDDD____".toList)
      (fun i => some [if i = 0 then 1 else 0])).bind fun enc =>
        (decodeChunks (codecOf 17 12 6 "DDDDDD_DDDDDD____".toList) {14}
          (enc.restrict (range 17 \ {14}))
          (prepareDecoded 17 (enc.restrict (range 17 \ {14})) fun _ => [0])).map fun res =>
            (res.1, enc 14, res.2 14)) =
      some (0, some [Byte.ofNat 196], some [Byte.ofNat 172]) := by
    decide +kernel
  obtain ⟨enc, henc, hmap⟩ := of_bind hrun
  obtain ⟨⟨ret, dec⟩, hdec, hval⟩ := of_map hmap
  simp only [Prod.mk.injEq] at hval
  obtain ⟨rfl, h196, h172⟩ := hval
  exact ⟨enc, dec, henc, hdec, h196, h172, by rw [h196, h172]; decide⟩

end Ceph.OptLrc
