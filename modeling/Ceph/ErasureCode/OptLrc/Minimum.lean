import Ceph.ErasureCode.OptLrc.Repair

/-!
# The Optimal-LRC plugin: what `minimum_to_decode` lets through

`minimum_to_decode` refuses when two of the *wanted* erasures share a local
group; otherwise it asks for the available members of the groups with a wanted
erasure (`minimumToDecode_cases`).  `decode_chunks` however XORs the whole group,
and a member that is neither wanted nor available is then whatever the allocator
left in its buffer.  So the pair never reports success with wrong bytes exactly
when it refuses, or the mates of every wanted erasure are available
(`neverWrong_iff`).
-/

namespace Ceph.OptLrc

open Finset ErasureCode Option

/-! ## The loop over the wanted erasures -/

variable (c : Codec)

/-- Two different wanted erasures share a local group. -/
def Collision (es : List ℕ) : Prop :=
  ∃ e ∈ es, ∃ e' ∈ es, e ≠ e' ∧ c.group e = c.group e'

/-- The available chunks of the groups of `es`. -/
def groupChunks (available : Finset ℕ) (es : List ℕ) : Finset ℕ :=
  available.filter fun i => ∃ e ∈ es, c.group e = c.group i

/-- The loop stops at a collision, and otherwise collects the groups it met and
their available chunks. -/
theorem foldl_failedGroupsStep (available : Finset ℕ) {es : List ℕ} (hnd : es.Nodup) :
    (Collision c es ∧ ∃ m, es.foldl (failedGroupsStep c available) (some ∅, ∅) = (none, m)) ∨
    (¬ Collision c es ∧ es.foldl (failedGroupsStep c available) (some ∅, ∅) =
      (some (es.map c.group).toFinset, groupChunks c available es)) := by
  refine Loop.foldl_invariant (fun pre (st : Option (Finset ℕ) × Finset ℕ) =>
    (Collision c pre ∧ ∃ m, st = (none, m)) ∨
    (¬ Collision c pre ∧ st = (some (pre.map c.group).toFinset, groupChunks c available pre)))
    ?_ ?_
  · exact .inr ⟨by simp [Collision], by simp [groupChunks]⟩
  · rintro pre it post st hsplit (⟨hcol, m, rfl⟩ | ⟨hcol, rfl⟩)
    · -- already stopped
      obtain ⟨e, he, e', he', hne⟩ := hcol
      exact .inl ⟨⟨e, by simp [he], e', by simp [he'], hne⟩, m, rfl⟩
    · by_cases hit : c.group it ∈ (pre.map c.group).toFinset
      · obtain ⟨e, he, hgrp⟩ := List.mem_map.1 (List.mem_toFinset.1 hit)
        have hne : e ≠ it := by
          rintro rfl
          rw [hsplit] at hnd
          exact (List.nodup_append.1 hnd).2.2 e he e List.mem_cons_self rfl
        refine .inl ⟨⟨e, by simp [he], it, by simp, hne, hgrp⟩, groupChunks c available pre, ?_⟩
        rw [failedGroupsStep, if_pos hit]
      · have hnew : ∀ e ∈ pre, c.group e ≠ c.group it := by
          intro e he hgrp
          exact hit (List.mem_toFinset.2 (List.mem_map.2 ⟨e, he, hgrp⟩))
        refine .inr ⟨?_, ?_⟩
        · rintro ⟨e, he, e', he', hne, hgrp⟩
          simp only [List.mem_append, List.mem_singleton] at he he'
          rcases he with he | rfl <;> rcases he' with he' | rfl
          · exact hcol ⟨e, he, e', he', hne, hgrp⟩
          · exact hnew e he hgrp
          · exact hnew e' he' hgrp.symm
          · exact hne rfl
        · rw [failedGroupsStep, if_neg hit]
          refine Prod.ext ?_ ?_
          · simp
          · ext i
            simp only [groupChunks, mem_union, mem_filter, mem_insert,
              List.mem_toFinset, List.mem_map, List.mem_append, List.mem_singleton]
            grind

/-- The wanted chunks of the stripe that are not available. -/
def missingWanted (want available : Finset ℕ) : List ℕ :=
  (List.range c.n).filter fun i => i ∉ available ∧ i ∈ want

theorem mem_missingWanted {c : Codec} {want available : Finset ℕ} {i : ℕ} :
    i ∈ missingWanted c want available ↔ i < c.n ∧ i ∉ available ∧ i ∈ want := by
  simp [missingWanted]

/-- **What `minimum_to_decode` answers.**  It refuses on a collision among the
wanted erasures; otherwise it asks for the available chunks that are wanted or
in the group of a wanted erasure. -/
theorem minimumToDecode_cases {c : Codec} {g : OptLRC} (hg : configs c.n c.k c.r = some g)
    {want : Finset ℕ} (available : Finset ℕ) (hwant : want ⊆ range c.n) :
    (Collision c (missingWanted c want available) ∧
      ∃ m, minimumToDecode c want available ∅ = some (-eio, m)) ∨
    (¬ Collision c (missingWanted c want available) ∧
      ∃ m, minimumToDecode c want available ∅ = some (0, m) ∧ ∀ i, i ∈ m ↔ i ∈ available ∧
        (i ∈ want ∨ ∃ e ∈ missingWanted c want available, c.group e = c.group i)) := by
  have hlist : (List.range c.n).filter (fun i => i ∈ ((range c.n).filter (· ∉ available)).filter
      (· ∈ want)) = missingWanted c want available := by
    refine List.filter_congr fun i hi => ?_
    simp [List.mem_range.1 hi]
  by_cases hempty : ((range c.n).filter (· ∉ available)).filter (· ∈ want) = ∅
  · -- everything wanted is at hand
    have hnil : missingWanted c want available = [] := by
      rw [← hlist, hempty]
      simp
    refine .inr ⟨by simp [hnil, Collision], want, ?_, fun i => ?_⟩
    · simp only [minimumToDecode, hg, bind_eq_bind, bind_some, if_pos hempty]
    · have hsub : i ∈ want → i ∈ available := by
        intro hi
        by_contra hna
        have : i ∈ missingWanted c want available :=
          mem_missingWanted.2 ⟨mem_range.1 (hwant hi), hna, hi⟩
        rw [hnil] at this
        cases this
      simp only [hnil, List.not_mem_nil, false_and, exists_false, or_false]
      exact ⟨fun hi => ⟨hsub hi, hi⟩, And.right⟩
  · have hnd : (missingWanted c want available).Nodup := List.nodup_range.filter _
    rcases foldl_failedGroupsStep c available hnd with ⟨hcol, m, hfold⟩ | ⟨hcol, hfold⟩
    · refine .inl ⟨hcol, m, ?_⟩
      simp only [minimumToDecode, hg, bind_eq_bind, bind_some, if_neg hempty, hlist, hfold]
    refine .inr ⟨hcol, (groupChunks c available (missingWanted c want available) ∪ want) \
      (range c.n).filter (· ∉ available), ?_, fun i => ?_⟩
    · simp only [minimumToDecode, hg, bind_eq_bind, bind_some, if_neg hempty, hlist, hfold]
    · simp only [groupChunks, mem_sdiff, mem_union, mem_filter, mem_range]
      constructor
      · rintro ⟨⟨hia, hgrp⟩ | hiw, hnot⟩
        · exact ⟨hia, .inr hgrp⟩
        · refine ⟨?_, .inl hiw⟩
          by_contra hna
          exact hnot ⟨mem_range.1 (hwant hiw), hna⟩
      · rintro ⟨hia, hiw | hgrp⟩
        · exact ⟨.inr hiw, fun hc => hc.2 hia⟩
        · exact ⟨.inl ⟨hia, hgrp⟩, fun hc => hc.2 hia⟩

/-! ## Success means the right bytes -/

/-- The rows of every local group cancel in every column. -/
def RowsCancel (g : OptLRC) : Prop :=
  ∀ grp < c.n, ∀ j < c.k, g.columnSum c.n c.r grp j = 0

instance (g : OptLRC) : Decidable (RowsCancel c g) :=
  inferInstanceAs (Decidable (∀ grp < c.n, ∀ j < c.k, g.columnSum c.n c.r grp j = 0))

theorem RowsCancel.syndrome {c : Codec} {g : OptLRC} (h : RowsCancel c g) (data : ℕ → Buffer)
    {e : ℕ} (he : e < c.n) (t : ℕ) : syndrome c g data (c.group e) t = 0 := by
  have hgrp : c.group e < c.n := lt_of_le_of_lt (Nat.div_le_self _ _) he
  exact sum_eq_zero fun j hj => by rw [h _ hgrp j (mem_range.1 hj), zero_mul]

/-- Whatever the stripe and whatever the allocator returns: if
`minimum_to_decode` succeeds, it asks for available chunks only, and decoding
from what it asked for returns an error or the wanted chunks as encoded. -/
def NeverWrong [Jerasure] (want available : Finset ℕ) : Prop :=
  ∀ (b : ℕ) (encoded enc : ChunkMap) (fresh : ℕ → Buffer) (m : Finset ℕ),
    (∀ i < c.n, ∃ buf, encoded i = some buf ∧ buf.length = b) → (∀ i, (fresh i).length = b) →
    encodeChunks c encoded = some enc → minimumToDecode c want available ∅ = some (0, m) →
    m ⊆ available ∧ ∃ ret dec, decode c fresh want (enc.restrict m) = some (ret, dec) ∧
      (ret ≠ 0 ∨ ∀ i ∈ want, dec i = enc i)

section

variable {c : Codec} {g : OptLRC} {want available : Finset ℕ} {data : ℕ → Buffer} {enc : ChunkMap}
  {m : Finset ℕ}

theorem restrict_isSome_iff {b : ℕ} (h : Stripe c g data b enc) (hm : m ⊆ range c.n) {i : ℕ} :
    (enc.restrict m i).isSome ↔ i ∈ m := by
  rw [ChunkMap.restrict]
  by_cases hi : i ∈ m
  · simp [hi, h.chunk i (mem_range.1 (hm hi))]
  · simp [hi]

/-- The slow path of `decode`: something wanted is not at hand. -/
theorem decode_of_missing [Jerasure] {b : ℕ} {fresh : ℕ → Buffer} (h : Stripe c g data b enc)
    (hm : m ⊆ range c.n) {e : ℕ} (he : e ∈ want) (hem : e ∉ m) :
    decode c fresh want (enc.restrict m) = if m = ∅ then none else
      decodeChunks c want (enc.restrict m) (prepareDecoded c.n (enc.restrict m) fresh) := by
  rw [decode, ErasureCode.decode, if_neg fun hall => hem ((restrict_isSome_iff h hm).1 (hall e he))]
  by_cases hempty : m = ∅
  · have hbegin : (enc.restrict m).begin c.n = none := by
      rw [eq_none_iff_forall_ne_some]
      intro buf hbuf
      obtain ⟨i, -, hi⟩ := ChunkMap.exists_of_begin_eq hbuf
      simp [ChunkMap.restrict, hempty] at hi
    rw [hbegin, if_pos hempty]
  · obtain ⟨i, hi⟩ := nonempty_iff_ne_empty.2 hempty
    obtain ⟨buf, hbuf⟩ := isSome_iff_exists.1 (ChunkMap.begin_isSome
      (mem_range.1 (hm hi)) ((restrict_isSome_iff h hm).2 hi))
    rw [hbuf, if_neg hempty]

theorem decode_of_present [Jerasure] {b : ℕ} (fresh : ℕ → Buffer) (h : Stripe c g data b enc)
    (hm : m ⊆ range c.n) (hwm : want ⊆ m) :
    ∃ dec, decode c fresh want (enc.restrict m) = some (0, dec) ∧ ∀ i ∈ want, dec i = enc i := by
  refine ⟨_, if_pos fun i hi => (restrict_isSome_iff h hm).2 (hwm hi), fun i hi => ?_⟩
  rw [if_pos hi, ChunkMap.restrict, if_pos (hwm hi)]

/-- If the mates of every wanted erasure are available, decoding from what
`minimum_to_decode` asked for gives the wanted chunks. -/
theorem neverWrong_of_mates [Jerasure] (hM : Mapped c g) (hcancel : RowsCancel c g)
    (hwant : want ⊆ range c.n) (hav : available ⊆ range c.n)
    (hmates : ∀ e ∈ want \ available, c.mates e ⊆ available) : NeverWrong c want available := by
  intro b encoded enc fresh m hbuf hfresh henc hmin
  obtain ⟨enc', henc', hstripe⟩ := encodeChunks_stripe hM hbuf
  obtain rfl : enc' = enc := some.inj (henc'.symm.trans henc)
  rcases minimumToDecode_cases hM.config available hwant with ⟨-, m', hm'⟩ | ⟨hcol, m', hm', hmem⟩
  · rw [hm', some.injEq, Prod.mk.injEq] at hmin
    exact absurd hmin.1 (by decide)
  obtain rfl : m' = m := congrArg Prod.snd (some.inj (hm'.symm.trans hmin))
  have hsub : m' ⊆ available := fun i hi => ((hmem i).1 hi).1
  have hrange : m' ⊆ range c.n := hsub.trans hav
  refine ⟨hsub, ?_⟩
  by_cases hall : want ⊆ m'
  · obtain ⟨dec, hdec, heq⟩ := decode_of_present fresh hstripe hrange hall
    exact ⟨0, dec, hdec, .inr heq⟩
  obtain ⟨e, hew, hem⟩ := not_subset.1 hall
  -- a wanted chunk that is not read is not available
  have hgone : ∀ i ∈ want, i ∉ m' → i ∉ available := fun i hi him hia =>
    him ((hmem i).2 ⟨hia, .inl hi⟩)
  have hmiss : ∀ i ∈ want, i ∉ m' → i ∈ missingWanted c want available := fun i hi him =>
    mem_missingWanted.2 ⟨mem_range.1 (hwant hi), hgone i hi him, hi⟩
  have hread : ∀ i ∈ want, i ∉ m' → c.mates i ⊆ m' := by
    intro i hi him x hx
    have hgrp := (Codec.mem_mates.1 hx).2.1
    exact (hmem x).2 ⟨hmates i (mem_sdiff.2 ⟨hi, hgone i hi him⟩) hx,
      .inr ⟨i, hmiss i hi him, hgrp.symm⟩⟩
  have hne : m'.Nonempty := by
    obtain ⟨x, hx⟩ := mates_nonempty hM.config e (mem_range.1 (hwant hew))
    exact ⟨x, hread e hew hem hx⟩
  obtain ⟨dec, hdec, hkeep, hrep⟩ := decodeChunks_stripe want _ hM.config hstripe hrange
    hne hfresh (fun x _ hxm hxw y _ hym hyw hgrp => by
      by_contra hxy
      exact hcol ⟨x, hmiss x hxw hxm, y, hmiss y hyw hym, hxy, hgrp⟩)
  refine ⟨0, dec, ?_, .inr fun i hi => ?_⟩
  · rw [decode_of_missing hstripe hrange hew hem, if_neg hne.ne_empty, hdec]
  · have hin : i < c.n := mem_range.1 (hwant hi)
    by_cases him : i ∈ m'
    · exact hkeep i him
    · rw [hrep i hin him hi, repaired_iff hstripe hrange hin (hread i hi him)]
      exact fun t _ => hcancel.syndrome _ hin t

/-! ## A mate that is neither wanted nor available -/

/-- The stripe of the all-zero data of one byte per chunk. -/
theorem zeroStripe [Jerasure] (hM : Mapped c g) :
    ∃ enc, encodeChunks c (fun _ => some [0]) = some enc ∧
    Stripe c g (dataOf c fun _ => some [0]) 1 enc ∧ ∀ i < c.n, enc i = some [0] := by
  have hbuf : ∀ i < c.n, ∃ buf, (some [0] : Option Buffer) = some buf ∧ buf.length = 1 :=
    fun i _ => ⟨_, rfl, rfl⟩
  obtain ⟨enc, henc, hstripe⟩ := encodeChunks_stripe hM hbuf
  refine ⟨enc, henc, hstripe, fun i hi => ?_⟩
  rw [hstripe.chunk i hi]
  simp [chunkOf, dataOf, ChunkMap.at]

/-- Garbage in the buffer of one mate of `e` ends up in `e`. -/
theorem xorOf_mates_garbage (hzero : ∀ i < c.n, enc i = some [0]) {e x : ℕ} (hx : x ∈ c.mates e)
    (hxm : x ∉ m) :
    xorOf (prepareDecoded c.n (enc.restrict m) fun i => if i = x then [1] else [0]) 1 (c.mates e) =
      [1] := by
  have hat : ∀ i ∈ c.mates e,
      (((prepareDecoded c.n (enc.restrict m) fun i => if i = x then [1] else [0]).at i).getD 0 0) =
        if i = x then (1 : Byte) else 0 := by
    intro i hi
    have hin := (Codec.mem_mates.1 hi).1
    rw [ChunkMap.at, prepareDecoded, if_pos hin, ChunkMap.restrict]
    by_cases him : i ∈ m
    · have hne : i ≠ x := fun h => hxm (h ▸ him)
      simp [him, hzero i hin, hne]
    · rw [if_neg him]
      by_cases hix : i = x <;> simp [hix]
  rw [xorOf, List.range_one, List.map_singleton, sum_congr rfl hat, sum_ite_eq', if_pos hx]

/-- A wanted erasure with a mate that is not available, while `minimum_to_decode`
sees no collision: decoding is wrong for some stripe, or reads an empty map. -/
theorem not_neverWrong_of_missing_mate [Jerasure] (hM : Mapped c g) (hwant : want ⊆ range c.n)
    (hav : available ⊆ range c.n) (hcol : ¬ Collision c (missingWanted c want available)) {e x : ℕ}
    (he : e ∈ want \ available) (hx : x ∈ c.mates e) (hxa : x ∉ available) :
    ¬ NeverWrong c want available := by
  intro hnever
  obtain ⟨hew, hea⟩ := mem_sdiff.1 he
  have hen : e < c.n := mem_range.1 (hwant hew)
  obtain ⟨enc, henc, hstripe, hzero⟩ := zeroStripe hM
  rcases minimumToDecode_cases hM.config available hwant with ⟨hcol', -⟩ | ⟨-, m, hmin, hmem⟩
  · exact hcol hcol'
  have hsub : m ⊆ available := fun i hi => ((hmem i).1 hi).1
  have hrange : m ⊆ range c.n := hsub.trans hav
  have hem : e ∉ m := fun hc => hea (hsub hc)
  obtain ⟨-, ret, dec, hdec, hgood⟩ := hnever 1 (fun _ => some [0]) enc
    (fun i => if i = x then [1] else [0]) m (fun i _ => ⟨_, rfl, rfl⟩)
    (fun i => by by_cases hi : i = x <;> simp [hi]) henc hmin
  rw [decode_of_missing hstripe hrange hew hem] at hdec
  by_cases hempty : m = ∅
  · rw [if_pos hempty] at hdec
    cases hdec
  have hmiss : ∀ i < c.n, i ∉ m → i ∈ want → i ∈ missingWanted c want available :=
    fun i hin him hiw => mem_missingWanted.2 ⟨hin, fun hia => him ((hmem i).2 ⟨hia, .inl hiw⟩), hiw⟩
  obtain ⟨dec', hdec', -, hrep⟩ := decodeChunks_stripe want
    (fun i => if i = x then [1] else [0]) hM.config hstripe hrange
    (nonempty_iff_ne_empty.2 hempty) (fun i => by by_cases hi : i = x <;> simp [hi])
    (fun y hyn hym hyw z hzn hzm hzw hgrp => by
      by_contra hyz
      exact hcol ⟨y, hmiss y hyn hym hyw, z, hmiss z hzn hzm hzw, hyz, hgrp⟩)
  rw [if_neg hempty, hdec'] at hdec
  obtain ⟨rfl, rfl⟩ := hdec
  have hval := hrep e hen hem hew
  rw [xorOf_mates_garbage hzero hx fun hc => hxa (hsub hc)] at hval
  rcases hgood with hne | hall
  · exact hne rfl
  · have := (hall e hew).symm.trans hval
    rw [hzero e hen] at this
    exact absurd this (by decide)

/-- **Success with wrong bytes.**  On a registered matrix whose rows cancel, the
plugin never reports success with wrong bytes exactly when `minimum_to_decode`
refuses because two wanted erasures share a group, or every mate of every wanted
erasure is available. -/
theorem neverWrong_iff [Jerasure] {n k r : ℕ} (hg : configs n k r = some g) {mapping : List Char}
    (hmap : DataOnUnitRows g n k mapping) (hcancel : RowsCancel (codecOf n k r mapping) g)
    (hwant : want ⊆ range n) (hav : available ⊆ range n) :
    NeverWrong (codecOf n k r mapping) want available ↔
      (∃ e ∈ want \ available, ∃ e' ∈ want \ available, e ≠ e' ∧ e / (r + 1) = e' / (r + 1)) ∨
      ∀ e ∈ want \ available, ∀ i < n, i / (r + 1) = e / (r + 1) → i ≠ e → i ∈ available := by
  set c := codecOf n k r mapping
  have hM : Mapped c g := hmap.mapped hg
  have hmemw : ∀ e, e ∈ want \ available ↔ e ∈ missingWanted c want available := by
    intro e
    rw [mem_sdiff, mem_missingWanted]
    exact ⟨fun h => ⟨mem_range.1 (hwant h.1), h.2, h.1⟩, fun h => ⟨h.2.2, h.2.1⟩⟩
  have hcoll : (∃ e ∈ want \ available, ∃ e' ∈ want \ available, e ≠ e' ∧
      e / (r + 1) = e' / (r + 1)) ↔ Collision c (missingWanted c want available) := by
    simp only [hmemw]
    rfl
  rw [hcoll]
  constructor
  · intro hnever
    by_contra hnot
    obtain ⟨hcol, hex⟩ := not_or.1 hnot
    push Not at hex
    obtain ⟨e, he, i, hin, hgrp, hne, hia⟩ := hex
    exact not_neverWrong_of_missing_mate hM hwant hav hcol he
      (Codec.mem_mates.2 ⟨hin, hgrp, hne⟩) hia hnever
  · rintro (hcol | hmates)
    · -- refused, so there is nothing to show
      intro b encoded enc fresh m _ _ _ hmin
      rcases minimumToDecode_cases hM.config available hwant with ⟨-, m', hm'⟩ | ⟨hcol', -⟩
      · rw [hm', some.injEq, Prod.mk.injEq] at hmin
        exact absurd hmin.1 (by decide)
      · exact absurd hcol hcol'
    · refine neverWrong_of_mates hM hcancel hwant hav fun e he i hi => ?_
      obtain ⟨hin, hgrp, hne⟩ := Codec.mem_mates.1 hi
      exact hmates e he i hin hgrp hne

end

/-- Chunk 0 wanted and lost, everything else there. -/
theorem neverWrong_9_4_2 : NeverWrong (codecOf 9 4 2 "DD_DD____".toList) {0} (range 9 \ {0}) :=
  (neverWrong_iff rfl (by decide +kernel) (by decide +kernel) (by decide)
    (by decide)).2 (.inr (by decide))

/-- Chunks 0 and 1 of one group are lost and only chunk 0 is wanted: both calls
succeed, and chunk 0 comes back as the byte the allocator left in the buffer of
chunk 1. -/
theorem decode_wrong_9_4_2 :
    ∃ enc dec, encodeChunks (codecOf 9 4 2 "DD_DD____".toList) (fun _ => some [0]) = some enc ∧
      minimumToDecode (codecOf 9 4 2 "DD_DD____".toList) {0} (range 9 \ {0, 1}) ∅ = some (0, {2}) ∧
      decode (codecOf 9 4 2 "DD_DD____".toList) (fun i => if i = 1 then [1] else [0]) {0}
        (enc.restrict {2}) = some (0, dec) ∧ enc 0 = some [0] ∧ dec 0 = some [1] := by
  have hrun : ((encodeChunks (codecOf 9 4 2 "DD_DD____".toList) (fun _ => some [0])).bind fun enc =>
      (decode (codecOf 9 4 2 "DD_DD____".toList) (fun i => if i = 1 then [1] else [0]) {0}
        (enc.restrict {2})).map fun res => (res.1, enc 0, res.2 0)) =
      some (0, some [0], some [1]) := by
    decide +kernel
  obtain ⟨enc, henc, hmap⟩ := of_bind hrun
  obtain ⟨⟨ret, dec⟩, hdec, hval⟩ := of_map hmap
  simp only [Prod.mk.injEq] at hval
  obtain ⟨rfl, henc0, hdec0⟩ := hval
  exact ⟨enc, dec, henc, by decide +kernel, hdec, henc0, hdec0⟩

end Ceph.OptLrc
