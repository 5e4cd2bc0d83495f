import Ceph.ErasureCode.OptLrc.Encode

/-!
# The Optimal-LRC plugin: what `decode_chunks` computes

The repair loop of `decode_chunks` replaces each wanted, absent chunk by the XOR
of the other buffers of its local group, whatever these hold
(`decodeChunks_spec`).
-/

namespace Ceph.OptLrc

open Finset Function Option Codec

/-! ## Collecting the local group -/

variable (c : Codec)

/-- How many of the `n` chunks are in local group `grp`. -/
def Codec.groupSize (grp : ℕ) : ℕ := min (c.n - grp * (c.r + 1)) (c.r + 1)

theorem Codec.group_eq_iff (i grp : ℕ) :
    c.group i = grp ↔ grp * (c.r + 1) ≤ i ∧ i < grp * (c.r + 1) + (c.r + 1) := by
  rw [group, Nat.div_eq_iff (by omega)]
  constructor <;> rintro ⟨h1, h2⟩ <;> constructor <;> omega

/-- The members of the group are the `groupSize` ids from `grp * (r + 1)` on. -/
theorem Codec.mem_group_iff (i grp : ℕ) :
    (i < c.n ∧ c.group i = grp) ↔ ∃ m < c.groupSize grp, i = grp * (c.r + 1) + m := by
  rw [c.group_eq_iff, groupSize]
  constructor
  · rintro ⟨hi, h1, h2⟩
    exact ⟨i - grp * (c.r + 1), by omega, by omega⟩
  · rintro ⟨m, hm, rfl⟩
    omega

/-- After the collecting loop, slot `m` points to the `m`-th member of the group. -/
theorem collectLocal_spec (grp : ℕ) (loc : ℕ → Option ℕ) :
    (collectLocal c grp loc).1 = c.groupSize grp ∧
      ∀ m < c.groupSize grp, (collectLocal c grp loc).2 m = some (grp * (c.r + 1) + m) := by
  refine Loop.foldl_range_invariant (fun s (st : ℕ × (ℕ → Option ℕ)) =>
    st.1 = min (s - grp * (c.r + 1)) (c.r + 1) ∧
      ∀ m < min (s - grp * (c.r + 1)) (c.r + 1), st.2 m = some (grp * (c.r + 1) + m))
    ⟨by simp, by simp⟩ ?_
  rintro i ⟨size, loc⟩ - ⟨hsize, hloc⟩
  by_cases hi : c.group i = grp
  · obtain ⟨h1, h2⟩ := (c.group_eq_iff i grp).1 hi
    have hmod : i % (c.r + 1) = i - grp * (c.r + 1) := by
      obtain ⟨m, rfl⟩ : ∃ m, i = grp * (c.r + 1) + m := ⟨i - grp * (c.r + 1), by omega⟩
      rw [Nat.mul_add_mod', Nat.mod_eq_of_lt (by omega)]
      omega
    simp only [if_pos hi, hmod]
    refine ⟨by omega, fun m hm => ?_⟩
    by_cases hm' : m = i - grp * (c.r + 1)
    · rw [hm', update_self]
      congr 1
      omega
    · rw [update_of_ne hm']
      exact hloc m (by omega)
  · have hout := mt (c.group_eq_iff i grp).2 hi
    simp only [if_neg hi]
    have hmin : min (i + 1 - grp * (c.r + 1)) (c.r + 1) = min (i - grp * (c.r + 1)) (c.r + 1) := by
      omega
    rw [hmin]
    exact ⟨hsize, hloc⟩

/-! ## Repairing one chunk -/

/-- Byte by byte, the sum of the buffers `ids` point to. -/
def xorOf (bufs : ChunkMap) (b : ℕ) (ids : Finset ℕ) : Buffer :=
  (List.range b).map fun t => ∑ i ∈ ids, (bufs.at i).getD t 0

@[simp] theorem length_xorOf (bufs : ChunkMap) (b : ℕ) (ids : Finset ℕ) :
    (xorOf bufs b ids).length = b := by
  simp [xorOf]

variable {b : ℕ}

theorem map_getD_range {buf : Buffer} (h : buf.length = b) :
    (List.range b).map (fun t => buf.getD t 0) = buf := by
  refine List.ext_getElem (by simp [h]) fun t ht ht' => ?_
  rw [List.getElem_map, List.getElem_range, List.getD_eq_getElem?_getD,
    List.getElem?_eq_getElem ht', getD_some]

variable {bufs : ChunkMap}

theorem xorOf_singleton {i : ℕ} (h : (bufs.at i).length = b) : xorOf bufs b {i} = bufs.at i := by
  simp only [xorOf, sum_singleton]
  exact map_getD_range h

/-- XORing one more buffer into the sum of `ids`. -/
theorem zipWith_xorOf {i : ℕ} {ids : Finset ℕ} (hi : i ∉ ids) (h : (bufs.at i).length = b) :
    List.zipWith (· + ·) (bufs.at i) (xorOf bufs b ids) = xorOf bufs b (insert i ids) := by
  refine List.ext_getElem (by simp [h]) fun t ht ht' => ?_
  have htb : t < (bufs.at i).length := by simp at ht; omega
  simp only [List.getElem_zipWith, xorOf, List.getElem_map, List.getElem_range, sum_insert hi]
  rw [List.getD_eq_getElem?_getD, List.getElem?_eq_getElem htb, getD_some]

theorem xorOf_congr {bufs' : ChunkMap} {ids : Finset ℕ} (h : ∀ i ∈ ids, bufs.at i = bufs'.at i) :
    xorOf bufs b ids = xorOf bufs' b ids := by
  refine List.map_congr_left fun t _ => sum_congr rfl fun i hi => ?_
  rw [h i hi]

/-- The other chunks of `e`'s local group. -/
def Codec.mates (e : ℕ) : Finset ℕ :=
  (range c.n).filter fun i => c.group i = c.group e ∧ i ≠ e

variable {c : Codec}

theorem Codec.mem_mates {e i : ℕ} : i ∈ c.mates e ↔ i < c.n ∧ c.group i = c.group e ∧ i ≠ e := by
  simp [mates]

section

variable (c : Codec)

/-- The mates of `e` in the first `s` slots of its group. -/
def Codec.metMates (e s : ℕ) : Finset ℕ :=
  ((range s).erase (e % (c.r + 1))).image (c.group e * (c.r + 1) + ·)

theorem Codec.eq_base_add (e : ℕ) : e = c.group e * (c.r + 1) + e % (c.r + 1) := by
  rw [group, Nat.div_add_mod']

theorem Codec.metMates_succ (e s : ℕ) :
    c.metMates e (s + 1) = if s = e % (c.r + 1) then c.metMates e s
      else insert (c.group e * (c.r + 1) + s) (c.metMates e s) := by
  by_cases hs : s = e % (c.r + 1)
  · rw [if_pos hs, metMates, metMates, range_add_one, ← hs, erase_insert_eq_erase]
  · rw [if_neg hs, metMates, metMates, range_add_one,
      erase_insert_of_ne hs, image_insert]

theorem Codec.notMem_metMates (e s : ℕ) : c.group e * (c.r + 1) + s ∉ c.metMates e s := by
  simp [metMates]

/-- By the last slot all mates have been met. -/
theorem Codec.metMates_groupSize (e : ℕ) : c.metMates e (c.groupSize (c.group e)) = c.mates e := by
  have he := c.eq_base_add e
  ext i
  rw [mem_mates, metMates]
  simp only [mem_image, mem_erase, mem_range]
  constructor
  · rintro ⟨m, ⟨hne, hm⟩, rfl⟩
    have h := (c.mem_group_iff _ (c.group e)).2 ⟨m, hm, rfl⟩
    exact ⟨h.1, h.2, by omega⟩
  · rintro ⟨hi, hg, hne⟩
    obtain ⟨m, hm, rfl⟩ := (c.mem_group_iff i (c.group e)).1 ⟨hi, hg⟩
    exact ⟨m, ⟨by omega, hm⟩, rfl⟩

/-- The state of the loop of `optlrc_decode_local` after `s` slots: nothing has
happened, or the erased chunk holds the XOR of the mates met so far. -/
def localState (e b : ℕ) (bufs : ChunkMap) (s : ℕ) : Bool × ChunkMap :=
  if c.metMates e s = ∅ then (false, bufs)
  else (true, update bufs e (some (xorOf bufs b (c.metMates e s))))

end

variable {loc : ℕ → Option ℕ}

theorem decodeLocalStep_localState [Jerasure] {e : ℕ} (he : e < c.n)
    (hlen : ∀ i < c.n, (bufs.at i).length = b) {s : ℕ} (hs : s < c.groupSize (c.group e))
    (hloc : loc s = some (c.group e * (c.r + 1) + s)) :
    decodeLocalStep loc (e % (c.r + 1)) e b (localState c e b bufs s) s =
      some (localState c e b bufs (s + 1)) := by
  have hebase := c.eq_base_add e
  by_cases hsle : s = e % (c.r + 1)
  · rw [decodeLocalStep, if_neg (by simpa using hsle), localState, localState,
      c.metMates_succ, if_pos hsle]
  set src := c.group e * (c.r + 1) + s with hsrcdef
  have hsrc : (bufs.at src).length = b :=
    hlen _ ((c.mem_group_iff src (c.group e)).2 ⟨s, hs, rfl⟩).1
  have hne : src ≠ e := by omega
  have hsucc : c.metMates e (s + 1) = insert src (c.metMates e s) := by
    rw [c.metMates_succ, if_neg hsle]
  rw [decodeLocalStep, if_pos hsle, hloc, localState, localState, hsucc,
    if_neg (insert_ne_empty _ _)]
  by_cases hempty : c.metMates e s = ∅
  · -- the first mate is copied
    rw [if_pos hempty]
    simp only [bind_eq_bind, bind_some, Bool.false_eq_true, if_false]
    rw [memcpy_of_length (hlen e he) hsrc, bind_some, hempty, insert_empty_eq, xorOf_singleton hsrc]
  · -- the others are XORed into what is there
    rw [if_neg hempty]
    have hate : ChunkMap.at (update bufs e (some (xorOf bufs b (c.metMates e s)))) e
        = xorOf bufs b (c.metMates e s) := by simp [ChunkMap.at]
    have hats : ChunkMap.at (update bufs e (some (xorOf bufs b (c.metMates e s)))) src
        = bufs.at src := by simp [ChunkMap.at, hne]
    simp only [bind_eq_bind, bind_some, if_true, hate, hats]
    rw [Jerasure.galoisRegionXor_of_length (length_xorOf _ _ _) hsrc, bind_some,
      zipWith_xorOf (c.notMem_metMates e s) hsrc, update_idem]

/-- `optlrc_decode_local` overwrites the erased chunk with the XOR of its mates. -/
theorem optlrcDecodeLocal_spec [Jerasure] {e : ℕ} (he : e < c.n) (hmate : (c.mates e).Nonempty)
    (hloc : ∀ m < c.groupSize (c.group e), loc m = some (c.group e * (c.r + 1) + m))
    (hlen : ∀ i < c.n, (bufs.at i).length = b) :
    optlrcDecodeLocal c e loc (c.groupSize (c.group e)) b bufs =
      some (update bufs e (some (xorOf bufs b (c.mates e)))) := by
  have hebase := c.eq_base_add e
  obtain ⟨m, hm, hem⟩ := (c.mem_group_iff e (c.group e)).1 ⟨he, rfl⟩
  obtain ⟨st, hst, hinv⟩ := Loop.foldlM_range_invariant (b := (false, bufs))
    (f := decodeLocalStep loc (e % (c.r + 1)) e b)
    (fun s st => st = localState c e b bufs s) (by simp [localState, metMates])
    (fun s st hs hst => ⟨_, by rw [hst, decodeLocalStep_localState he hlen hs (hloc s hs)], rfl⟩)
  rw [localState, c.metMates_groupSize, if_neg hmate.ne_empty] at hinv
  rw [optlrcDecodeLocal, hloc _ (by omega), bind_eq_bind, bind_some, ← hebase, hst, hinv]
  rfl

/-! ## The repair loop -/

/-- One turn of the repair loop replaces `e` by the XOR of its mates. -/
theorem repairOne_spec [Jerasure] {e : ℕ} (he : e < c.n) (hmate : (c.mates e).Nonempty)
    (hlen : ∀ i < c.n, (bufs.at i).length = b) (cnt : ℤ) (loc : ℕ → Option ℕ) :
    ∃ loc', repairOne c b (cnt, loc, bufs) e =
      some (cnt - 1, loc', update bufs e (some (xorOf bufs b (c.mates e)))) := by
  obtain ⟨hsize, hloc⟩ := collectLocal_spec c (c.group e) loc
  refine ⟨(collectLocal c (c.group e) loc).2, ?_⟩
  simp only [repairOne, hsize, optlrcDecodeLocal_spec he hmate hloc hlen, bind_eq_bind, bind_some]

theorem mem_erasedWanted {want : Finset ℕ} {chunks : ChunkMap} {i : ℕ} :
    i ∈ erasedWanted c want chunks ↔ i < c.n ∧ chunks i = none ∧ i ∈ want := by
  simp [erasedWanted]

section

variable {g : OptLRC} (hg : configs c.n c.k c.r = some g) (hmate : ∀ e < c.n, (c.mates e).Nonempty)
  (want : Finset ℕ) {chunks decoded : ChunkMap}
  (hfirst : ∃ buf, chunks.begin c.n = some buf ∧ buf.length = b)
  (hlen : ∀ i < c.n, (decoded.at i).length = b)

include hg hmate want hfirst hlen

/-- **What `decode_chunks` computes.**  When the wanted erasures lie in different
local groups, each of them ends up as the XOR of the buffers the caller put in
`decoded` for its mates; every other buffer is left alone and the result is `0`. -/
theorem decodeChunks_spec [Jerasure] (hdist : ∀ e ∈ erasedWanted c want chunks,
      ∀ e' ∈ erasedWanted c want chunks, c.group e = c.group e' → e = e') :
    ∃ out, decodeChunks c want chunks decoded = some (0, out) ∧
      ∀ i, out i = if i ∈ erasedWanted c want chunks then some (xorOf decoded b (c.mates i))
        else decoded i := by
  obtain ⟨first, hbegin, hfl⟩ := hfirst
  set es := erasedWanted c want chunks with hes
  -- the chunks repaired so far, and the counter that goes down with each of them
  obtain ⟨⟨cnt, loc, out⟩, hrun, hcnt, hout⟩ := Loop.foldlM_invariant
    (f := repairOne c b) (l := es) (b := ((es.length : ℤ), (fun _ => none), decoded))
    (fun pre st => st.1 = (es.length : ℤ) - pre.length ∧
      ∀ i, st.2.2 i = if i ∈ pre then some (xorOf decoded b (c.mates i)) else decoded i)
    (by simp) (by
      rintro pre e post ⟨cnt, loc, bufs⟩ hsplit ⟨hcnt, hbufs⟩
      have he : e ∈ es := by rw [hsplit]; simp
      have hen : e < c.n := (mem_erasedWanted.1 he).1
      have hpre : ∀ i ∈ pre, i ∈ es := fun i hi => by rw [hsplit]; simp [hi]
      have hlen' : ∀ i < c.n, (ChunkMap.at bufs i).length = b := by
        intro i hi
        simp only at hbufs
        rw [ChunkMap.at, hbufs i]
        by_cases hip : i ∈ pre
        · simp [hip]
        · rw [if_neg hip]
          exact hlen i hi
      -- no mate of `e` has been repaired: they would be wanted erasures of its group
      have hmates : ∀ i ∈ c.mates e, ChunkMap.at bufs i = decoded.at i := by
        intro i hi
        obtain ⟨-, hgrp, hne⟩ := mem_mates.1 hi
        simp only at hbufs
        rw [ChunkMap.at, hbufs i, if_neg fun hip => hne (hdist i (hpre i hip) e he hgrp),
          ChunkMap.at]
      obtain ⟨loc', hone⟩ := repairOne_spec hen (hmate e hen) hlen' cnt loc
      refine ⟨_, hone, ?_, fun i => ?_⟩
      · simp only at hcnt
        simp only [hcnt, List.length_append, List.length_singleton]
        push_cast
        ring
      · simp only [xorOf_congr hmates]
        by_cases hie : i = e
        · subst hie
          simp
        · rw [update_of_ne hie]
          simp only at hbufs
          rw [hbufs i]
          simp [hie])
  refine ⟨out, ?_, hout⟩
  simp only at hcnt
  simp only [decodeChunks, hbegin, hg, bind_eq_bind, bind_some, ← hes, hfl, hrun, hcnt]
  simp

/-- Whatever is erased, `decode_chunks` stays inside its buffers. -/
theorem decodeChunks_isSome [Jerasure] : (decodeChunks c want chunks decoded).isSome := by
  obtain ⟨first, hbegin, hfl⟩ := hfirst
  have hstep : ∀ (pre : List ℕ) (e : ℕ) (post : List ℕ) (st : ℤ × (ℕ → Option ℕ) × ChunkMap),
      erasedWanted c want chunks = pre ++ e :: post → (∀ i < c.n, (st.2.2.at i).length = b) →
      ∃ st', repairOne c b st e = some st' ∧ ∀ i < c.n, (st'.2.2.at i).length = b := by
    rintro pre e post ⟨cnt, loc, bufs⟩ hsplit hbufs
    have he : e ∈ erasedWanted c want chunks := by rw [hsplit]; simp
    have hen : e < c.n := (mem_erasedWanted.1 he).1
    obtain ⟨loc', hone⟩ := repairOne_spec hen (hmate e hen) hbufs cnt loc
    refine ⟨_, hone, fun i hi => ?_⟩
    by_cases hie : i = e
    · subst hie
      simp [ChunkMap.at]
    · simp only [ChunkMap.at, update_of_ne hie]
      exact hbufs i hi
  obtain ⟨st, hrun, -⟩ := Loop.foldlM_invariant
    (b := (((erasedWanted c want chunks).length : ℤ), (fun _ => none), decoded)) _ hlen hstep
  simp only [decodeChunks, hbegin, hg, bind_eq_bind, bind_some, hfl, hrun, isSome_some]

end

end Ceph.OptLrc
