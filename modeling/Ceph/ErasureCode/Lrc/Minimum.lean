import Ceph.ErasureCode.Lrc.Encode

/-!
# The LRC plugin: what `minimum_to_decode` asks for is enough

`minimum_to_decode` walks the layers with its own bookkeeping: it counts the real
erasures, lets a layer contribute only the first `k` of its usable chunks, and
skips the layers without a wanted erasure.  `decode_chunks` then starts from a
larger set of erasures, everything outside the minimum.  The two walks still
agree where it matters: a layer that is counted on in the first walk has `k`
chunks in the second, read or already rebuilt (`peel_erased_subset`).

All this is about stripes that are a codeword of every layer.  `encode_chunks` leaves one if the
layers are a stack (`Stacked`), and need not do so otherwise (`overlap_wrong`).
-/

namespace Ceph.Lrc

open Finset Peeling

/-! ## The first `k` usable chunks -/

/-- Nothing but usable chunks is inserted, and if `k` of them are left to find, the loop finds
them. -/
theorem firstUsable_spec {k : ℕ} {usable : Finset ℕ} {l : List ℕ} (hnd : l.Nodup) {count : ℕ}
    {acc : Finset ℕ} (hsub : acc ⊆ usable) (hacc : acc.card = count) (hnew : ∀ x ∈ l, x ∉ acc)
    (hk : k ≤ count + (l.toFinset ∩ usable).card) :
    firstUsable k usable l count acc ⊆ usable ∧ k ≤ (firstUsable k usable l count acc).card := by
  induction l generalizing count acc with
  | nil => exact ⟨hsub, by simpa [firstUsable, hacc] using hk⟩
  | cons j l ih =>
    obtain ⟨hjl, hndl⟩ := List.nodup_cons.1 hnd
    have hjacc : j ∉ acc := hnew j List.mem_cons_self
    rw [List.toFinset_cons] at hk
    rw [firstUsable]
    by_cases hj : j ∈ usable
    · have hins : insert j acc ⊆ usable := insert_subset hj hsub
      have hcard : (insert j acc).card = count + 1 := by
        rw [card_insert_of_notMem hjacc, hacc]
      rw [if_pos hj]
      by_cases hck : count + 1 = k
      · rw [if_pos hck]
        exact ⟨hins, by rw [hcard, hck]⟩
      · rw [if_neg hck]
        refine ih hndl hins hcard (fun x hx hmem => ?_) ?_
        · rcases mem_insert.1 hmem with rfl | hmem
          · exact hjl hx
          · exact hnew x (List.mem_cons_of_mem _ hx) hmem
        · rw [insert_inter_of_mem hj, card_insert_of_notMem (by simp [hjl])] at hk
          omega
    · rw [if_neg hj]
      refine ih hndl hsub hacc (fun x hx => hnew x (List.mem_cons_of_mem _ hx)) ?_
      rwa [insert_inter_of_notMem hj] at hk

/-! ## Case 2 -/

section Case2

variable {n : ℕ} {want : Finset ℕ}

/-- What one turn of the loop of case 2 does: nothing that matters for the
erasures, or it counts on the layer, which then has enough usable chunks. -/
theorem case2Step_cases (want : Finset ℕ) {layer : Layer} (hwf : layer.WellFormed n) (st : Case2) :
    ((case2Step n want st layer).erasuresNotRecovered = st.erasuresNotRecovered ∧
      (case2Step n want st layer).erasuresWant = st.erasuresWant ∧
      st.minimum ⊆ (case2Step n want st layer).minimum ∧
      (case2Step n want st layer).minimum ⊆ st.minimum ∪ want) ∨
    ∃ usable, usable ⊆ layer.chunksAsSet \ st.erasuresNotRecovered ∧
      layer.erasureCode.k ≤ usable.card ∧ case2Step n want st layer =
        ⟨st.erasuresNotRecovered \ (layer.chunksAsSet ∩ st.erasuresNotRecovered),
          st.erasuresWant \ (layer.chunksAsSet ∩ st.erasuresNotRecovered),
          st.minimum ∪ usable⟩ := by
  rw [case2Step]
  by_cases hw : want ∩ layer.chunksAsSet = ∅
  · simp only [if_pos hw]
    exact .inl ⟨trivial, trivial, Subset.refl _, subset_union_left⟩
  simp only [if_neg hw]
  by_cases he : want ∩ layer.chunksAsSet ∩ st.erasuresWant = ∅
  · simp only [if_pos he]
    exact .inl ⟨trivial, trivial, subset_union_left, union_subset_union_right inter_subset_left⟩
  simp only [if_neg he]
  by_cases hgt : (layer.chunksAsSet ∩ st.erasuresNotRecovered).card > layer.erasureCode.m
  · simp only [if_pos hgt]
    exact .inl ⟨trivial, trivial, Subset.refl _, subset_union_left⟩
  simp only [if_neg hgt]
  have hall : (List.range n).toFinset ∩ (layer.chunksAsSet \ st.erasuresNotRecovered) =
      layer.chunksAsSet \ st.erasuresNotRecovered := by
    refine inter_eq_right.2 fun c hc => ?_
    have := hwf.lt c (Layer.mem_chunksAsSet.1 (mem_sdiff.1 hc).1)
    simpa using this
  have hsplit := card_sdiff_add_card_inter layer.chunksAsSet st.erasuresNotRecovered
  have hcard := hwf.card
  obtain ⟨hsub, hk⟩ := firstUsable_spec List.nodup_range (empty_subset _) card_empty (by simp)
    (show layer.erasureCode.k ≤ _ by rw [hall]; omega)
  exact .inr ⟨_, hsub, hk, rfl⟩

/-- The walk only ever adds chunks to the minimum, all of them wanted or in a
layer. -/
theorem minimum_foldl_case2 (layers : List Layer) (hwf : ∀ layer ∈ layers, layer.WellFormed n)
    (hwant : want ⊆ range n) (st : Case2) (hst : st.minimum ⊆ range n) :
    st.minimum ⊆ (layers.foldl (case2Step n want) st).minimum ∧
      (layers.foldl (case2Step n want) st).minimum ⊆ range n := by
  induction layers generalizing st with
  | nil => exact ⟨Subset.refl _, hst⟩
  | cons layer layers ih =>
    have hlayer := hwf layer List.mem_cons_self
    have hstep : st.minimum ⊆ (case2Step n want st layer).minimum ∧
        (case2Step n want st layer).minimum ⊆ range n := by
      rcases case2Step_cases want hlayer st with ⟨-, -, h1, h2⟩ | ⟨usable, hu, -, heq⟩
      · exact ⟨h1, h2.trans (union_subset hst hwant)⟩
      · rw [heq]
        refine ⟨subset_union_left, union_subset hst fun c hc => ?_⟩
        exact mem_range.2 (hlayer.lt c (Layer.mem_chunksAsSet.1 (mem_sdiff.1 (hu hc)).1))
    obtain ⟨h1, h2⟩ := ih (fun l hl => hwf l (List.mem_cons_of_mem _ hl))
      (case2Step n want st layer) hstep.2
    exact ⟨hstep.1.trans h1, h2⟩

/-- The wanted erasures are the erasures not recovered that are wanted, all along
the walk. -/
theorem erasuresWant_foldl_case2 (want : Finset ℕ) {layers : List Layer}
    (hwf : ∀ layer ∈ layers, layer.WellFormed n) (st : Case2)
    (hst : st.erasuresNotRecovered ∩ want ⊆ st.erasuresWant) :
    (layers.foldl (case2Step n want) st).erasuresNotRecovered ∩ want ⊆
      (layers.foldl (case2Step n want) st).erasuresWant := by
  induction layers generalizing st with
  | nil => exact hst
  | cons layer layers ih =>
    refine ih (fun l hl => hwf l (List.mem_cons_of_mem _ hl)) (case2Step n want st layer) ?_
    rcases case2Step_cases want (hwf layer List.mem_cons_self) st with
      ⟨h1, h2, -⟩ | ⟨usable, -, -, heq⟩
    · rwa [h1, h2]
    · rw [heq]
      intro c hc
      obtain ⟨hcn, hcw⟩ := mem_inter.1 hc
      obtain ⟨hcn, hne⟩ := mem_sdiff.1 hcn
      exact mem_sdiff.2 ⟨hst (mem_inter.2 ⟨hcn, hcw⟩), hne⟩

/-- **The two walks agree.**  `total` are the real erasures and `missing` is what
`decode_chunks` has not got, among them nothing that the first walk puts into the
minimum.  If so far every real erasure that is still missing is one the first
walk has not recovered, then this is so at the end. -/
theorem peel_erased_subset {layers : List Layer} (hwf : ∀ layer ∈ layers, layer.WellFormed n)
    (hwant : want ⊆ range n) (total missing : Finset ℕ) (st : Case2) (hmin : st.minimum ⊆ range n)
    (hread : Disjoint missing ((layers.foldl (case2Step n want) st).minimum \ total))
    (hinv : missing ∩ total ⊆ st.erasuresNotRecovered) :
    peel (layers.map Layer.group) missing ∩ total ⊆
      (layers.foldl (case2Step n want) st).erasuresNotRecovered := by
  induction layers generalizing st missing with
  | nil => exact hinv
  | cons layer layers ih =>
    have hlayer := hwf layer List.mem_cons_self
    have hwf' := fun l hl => hwf l (List.mem_cons_of_mem layer hl)
    have hmin' : (case2Step n want st layer).minimum ⊆ range n :=
      (minimum_foldl_case2 [layer] (by simpa using hlayer) hwant st hmin).2
    have hsub := restore_subset missing layer.group
    refine ih hwf' _ _ hmin' (disjoint_of_subset_left hsub hread) ?_
    rcases case2Step_cases want hlayer st with ⟨h1, -⟩ | ⟨usable, hu, hk, heq⟩
    · rw [h1]
      exact (inter_subset_inter_right hsub).trans hinv
    -- the usable chunks of the layer are read, or were rebuilt before
    have husable : Disjoint usable missing := by
      rw [disjoint_left]
      intro c hc hcm
      obtain ⟨-, hcn⟩ := mem_sdiff.1 (hu hc)
      by_cases hct : c ∈ total
      · exact hcn (hinv (mem_inter.2 ⟨hcm, hct⟩))
      · have hcmin : c ∈ (case2Step n want st layer).minimum := by
          rw [heq]
          exact mem_union_right _ hc
        have hcfin := (minimum_foldl_case2 _ hwf' hwant _ hmin').1 hcmin
        exact disjoint_left.1 hread hcm (mem_sdiff.2 ⟨hcfin, hct⟩)
    have hle : (layer.group.1 ∩ missing).card ≤ layer.group.2 :=
      card_inter_le_of_subset hlayer.card (hu.trans sdiff_subset) hk husable
    rw [restore_of_le _ hle, heq]
    intro c hc
    obtain ⟨hcm, hct⟩ := mem_inter.1 hc
    obtain ⟨hcm, hcl⟩ := mem_sdiff.1 hcm
    exact mem_sdiff.2 ⟨hinv (mem_inter.2 ⟨hcm, hct⟩), fun h => hcl (mem_inter.1 h).1⟩

end Case2

/-! ## Case 3 -/

theorem case3Step_eq_restore (erased : Finset ℕ) (layer : Layer) :
    case3Step erased layer = restore erased layer.group := by
  rw [case3Step]
  by_cases he : layer.chunksAsSet ∩ erased = ∅
  · have hle : (layer.group.1 ∩ erased).card ≤ layer.group.2 := by
      rw [show layer.group.1 ∩ erased = ∅ from he]
      exact Nat.zero_le _
    simp only [if_pos he]
    rw [restore_of_le _ hle, eq_comm, Finset.sdiff_eq_self_iff_disjoint,
      disjoint_iff_inter_eq_empty, inter_comm]
    exact he
  · have hpos : (layer.chunksAsSet ∩ erased).card > 0 :=
      card_pos.2 (nonempty_iff_ne_empty.2 he)
    simp only [if_neg he]
    by_cases hle : (layer.chunksAsSet ∩ erased).card ≤ layer.erasureCode.m
    · rw [if_pos ⟨hpos, hle⟩, restore_of_le layer.group hle, inter_comm,
        sdiff_inter_self_left]
      rfl
    · rw [if_neg fun h => hle h.2, restore_of_lt layer.group (Nat.lt_of_not_le hle)]

/-- The walk of case 3 is peeling. -/
theorem foldl_case3Step (layers : List Layer) (erased : Finset ℕ) :
    layers.foldl case3Step erased = peel (layers.map Layer.group) erased := by
  induction layers generalizing erased with
  | nil => rfl
  | cons layer layers ih => rw [List.foldl_cons, case3Step_eq_restore, ih, List.map_cons, peel_cons]

/-! ## The minimum is enough -/

section Minimum

variable {n : ℕ} {layers : List Layer} {want available m : Finset ℕ}

/-- Whenever `minimum_to_decode` succeeds, it asks for available chunks, and
peeling the chunks it did not ask for leaves nothing wanted. -/
theorem minimumToDecode_peel (hwf : ∀ layer ∈ layers, layer.WellFormed n) (hwant : want ⊆ range n)
    (hmin : minimumToDecode n layers want available ∅ = (0, m)) :
    m ⊆ available ∧ Disjoint want (peel (layers.reverse.map Layer.group) (range n \ m)) := by
  have hwf' : ∀ layer ∈ layers.reverse, layer.WellFormed n :=
    fun l hl => hwf l (List.mem_reverse.1 hl)
  set total := (range n).filter (· ∉ available) with htotal
  have hmemtotal : ∀ c, c ∈ total ↔ c < n ∧ c ∉ available := by
    intro c
    rw [mem_filter, mem_range]
  rw [minimumToDecode, ← htotal] at hmin
  by_cases hnone : total.filter (· ∈ want) = ∅
  · -- case 1: everything wanted is available
    simp only [if_pos hnone, Prod.mk.injEq, true_and] at hmin
    subst hmin
    refine ⟨fun c hc => ?_, ?_⟩
    · by_contra hna
      have : c ∈ total.filter (· ∈ want) := mem_filter.2
        ⟨(hmemtotal c).2 ⟨mem_range.1 (hwant hc), hna⟩, hc⟩
      rw [hnone] at this
      exact absurd this (notMem_empty c)
    · exact disjoint_of_subset_right (peel_subset _ _) disjoint_sdiff
  · simp only [if_neg hnone] at hmin
    set st := layers.reverse.foldl (case2Step n want) ⟨total, total.filter (· ∈ want), ∅⟩ with hst
    by_cases hdone : st.erasuresWant = ∅
    · -- case 2
      simp only [if_pos hdone, Prod.mk.injEq, true_and] at hmin
      subst hmin
      have hrange : st.minimum ⊆ range n := (minimum_foldl_case2 _ hwf' hwant
        ⟨total, total.filter (· ∈ want), ∅⟩ (empty_subset _)).2
      have hsub : (st.minimum ∪ want) \ total ⊆ available := by
        intro c hc
        obtain ⟨hcu, hct⟩ := mem_sdiff.1 hc
        by_contra hna
        exact hct ((hmemtotal c).2 ⟨mem_range.1 (union_subset hrange hwant hcu), hna⟩)
      refine ⟨hsub, ?_⟩
      have hagree := peel_erased_subset hwf' hwant total (range n \ ((st.minimum ∪ want) \ total))
        ⟨total, total.filter (· ∈ want), ∅⟩ (empty_subset _)
        (by
          rw [disjoint_left]
          intro c hc hcm
          obtain ⟨hcm, hct⟩ := mem_sdiff.1 hcm
          exact (mem_sdiff.1 hc).2 (mem_sdiff.2 ⟨mem_union_left _ hcm, hct⟩))
        inter_subset_right
      have hwanted := erasuresWant_foldl_case2 want hwf' ⟨total, total.filter (· ∈ want), ∅⟩ (by
          intro c hc
          obtain ⟨hct, hcw⟩ := mem_inter.1 hc
          exact mem_filter.2 ⟨hct, hcw⟩)
      rw [disjoint_left]
      intro c hcw hcp
      by_cases hct : c ∈ total
      · have := hwanted (mem_inter.2 ⟨hagree (mem_inter.2 ⟨hcp, hct⟩), hcw⟩)
        rw [hdone] at this
        exact absurd this (notMem_empty c)
      · exact (mem_sdiff.1 (peel_subset _ _ hcp)).2
          (mem_sdiff.2 ⟨mem_union_right _ hcw, hct⟩)
    · simp only [if_neg hdone] at hmin
      by_cases hall : layers.reverse.foldl case3Step total = ∅
      · -- case 3
        simp only [if_pos hall, Prod.mk.injEq, true_and] at hmin
        subst hmin
        refine ⟨Subset.refl _, ?_⟩
        have heq : range n \ available = total := by
          rw [sdiff_eq_filter]
        rw [heq, ← foldl_case3Step, hall]
        exact disjoint_empty_right _
      · simp only [if_neg hall, Prod.mk.injEq] at hmin
        exact absurd hmin.1 (by decide)

/-- **What `minimum_to_decode` asks for is enough.**  `encode_chunks` leaves a codeword of every
layer if the layers are a stack.  For a stripe that is one: when `minimum_to_decode` returns `0`,
it asks for available chunks only, and `decode_chunks` on them returns `0` and every wanted chunk
as it was encoded. -/
theorem decodeChunks_of_minimumToDecode (hwf : ∀ layer ∈ layers, layer.WellFormed n) {b : ℕ}
    (hsound : ∀ layer ∈ layers, layer.Sound b) {data : ChunkMap}
    (hdata : ∀ i < n, ∃ buf, data i = some buf ∧ buf.length = b) :
    ∃ enc, encodeChunks layers (range n) data = some (0, enc) ∧
      (Stacked n layers → ∀ layer ∈ layers, layer.Codes b enc) ∧
      ((∀ layer ∈ layers, layer.Codes b enc) →
        ∀ want ⊆ range n, ∀ available m, minimumToDecode n layers want available ∅ = (0, m) →
        ∀ fresh : ℕ → Buffer, (∀ i, (fresh i).length = b) →
          m ⊆ available ∧ ∃ dec, decodeChunks n layers want (enc.restrict m)
              (ErasureCode.prepareDecoded n (enc.restrict m) fresh) = some (0, dec) ∧
            ∀ i ∈ want, dec i = enc i) := by
  obtain ⟨enc, hrun, hsize, hstacked⟩ := encodeChunks_spec hwf hsound hdata
  refine ⟨enc, hrun, hstacked, fun hcode want hwant available m hmin fresh hfresh => ?_⟩
  obtain ⟨hsub, hpeel⟩ := minimumToDecode_peel hwf hwant hmin
  exact ⟨hsub, decodeChunks_spec hwf hcode hsize hwant hfresh hpeel⟩

end Minimum

/-! ## Two layers of parities -/

/-- The sum of two chunks. -/
def xor (x y : Buffer) : Buffer := List.zipWith (· + ·) x y

/-- Two data chunks and their parity. -/
def parity : LayerCode where
  k := 2
  m := 1
  encodeChunks := fun _ encoded => do
    let x ← encoded 0
    let y ← encoded 1
    return (0, fun j => [x, y, xor x y][j]?)
  decodeChunks := fun _ chunks _ =>
    match chunks 0, chunks 1, chunks 2 with
    | some x, some y, _ => some (0, fun j => [x, y, xor x y][j]?)
    | some x, none, some p => some (0, fun j => [x, xor x p, p][j]?)
    | none, some y, some p => some (0, fun j => [xor p y, y, p][j]?)
    | _, _, _ => none

theorem length_xor {b : ℕ} {x y : Buffer} (hx : x.length = b) (hy : y.length = b) :
    (xor x y).length = b := by
  simp [xor, hx, hy]

theorem xor_xor_left {x y : Buffer} (h : x.length = y.length) : xor x (xor x y) = y := by
  refine List.ext_getElem (by simp [xor, h]) fun i _ _ => ?_
  simp only [xor, List.getElem_zipWith]
  rw [← add_assoc, BinaryField.add_self, zero_add]

theorem xor_xor_right {x y : Buffer} (h : x.length = y.length) : xor (xor x y) y = x := by
  refine List.ext_getElem (by simp [xor, h]) fun i _ _ => ?_
  simp only [xor, List.getElem_zipWith]
  rw [add_assoc, BinaryField.add_self, add_zero]

/-- Two chunks and their sum. -/
def Summed (b : ℕ) (w : List Buffer) : Prop :=
  ∃ x y, x.length = b ∧ y.length = b ∧ w = [x, y, xor x y]

theorem parity_mds (b : ℕ) : Mds parity b (Summed b) where
  length := by
    rintro w ⟨x, y, -, -, rfl⟩
    rfl
  size := by
    rintro w ⟨x, y, hx, hy, rfl⟩
    simp [hx, hy, length_xor hx hy]
  rebuild := by
    rintro w ⟨x, y, hx, hy, rfl⟩ - chunks - hchunks - hcard
    have h0 := hchunks 0 (by decide)
    have h1 := hchunks 1 (by decide)
    have h2 := hchunks 2 (by decide)
    have hlen := hx.trans hy.symm
    refine ⟨fun j => [x, y, xor x y][j]?, ?_, fun j _ => rfl⟩
    have hthree : range (parity.k + parity.m) = {0, 1, 2} := by decide
    rw [hthree] at hcard
    simp only [List.getElem?_cons_zero, List.getElem?_cons_succ] at h0 h1 h2
    -- one chunk at most is absent
    rcases h0 with h0 | h0 <;> rcases h1 with h1 | h1 <;> rcases h2 with h2 | h2 <;>
      simp [parity, h0, h1, h2, filter_insert, filter_singleton, xor_xor_left hlen,
        xor_xor_right hlen] at hcard ⊢

theorem parity_encodes (b : ℕ) : Encodes parity b (Summed b) := by
  intro want encoded hencoded
  obtain ⟨x, hx, hxb⟩ := hencoded 0 (by decide)
  obtain ⟨y, hy, hyb⟩ := hencoded 1 (by decide)
  refine ⟨fun j => [x, y, xor x y][j]?, by simp [parity, hx, hy], fun j hj => ?_, x, y,
    hxb, hyb, rfl⟩
  have hj' : j < 2 := hj
  interval_cases j
  · exact hx.symm
  · exact hy.symm

theorem sound_parity (data coding : List ℕ) (b : ℕ) : (Layer.mk data coding parity).Sound b :=
  ⟨Summed b, parity_mds b, parity_encodes b⟩

/-- The layers `DDc__` and a second one, with its data and coding chunks. -/
def twoParities (data coding : List ℕ) : List Layer :=
  [⟨[0, 1], [2], parity⟩, ⟨data, coding, parity⟩]

/-- A stripe with the data 1, 2, 4 and 8; what is coded is still 0. -/
def unencoded : ChunkMap := fun i => ([1, 2, 0, 4, 8].map fun a => [Byte.ofNat a])[i]?

theorem twoParities_wellFormed {data coding : List ℕ} (hnodup : (data ++ coding).Nodup)
    (hlt : ∀ c ∈ data ++ coding, c < 5) (hdata : data.length = 2) (hcoding : coding.length = 1) :
    ∀ layer ∈ twoParities data coding, layer.WellFormed 5 := by
  intro layer hl
  rcases List.mem_cons.1 hl with rfl | hl
  · exact ⟨by decide, by decide, rfl, rfl⟩
  · obtain rfl := List.mem_singleton.1 hl
    exact ⟨hnodup, hlt, hdata, hcoding⟩

theorem twoParities_sound (data coding : List ℕ) :
    ∀ layer ∈ twoParities data coding, layer.Sound 1 := by
  intro layer hl
  rcases List.mem_cons.1 hl with rfl | hl
  · exact sound_parity _ _ 1
  · obtain rfl := List.mem_singleton.1 hl
    exact sound_parity _ _ 1

theorem unencoded_size : ∀ i < 5, ∃ buf, unencoded i = some buf ∧ buf.length = 1 := by
  intro i hi
  interval_cases i <;> exact ⟨_, rfl, rfl⟩

/-- The layers `DDc__` and `__DDc`: without the chunks 0 and 2, the second layer rebuilds 2, and
then the first one 0. -/
theorem decodeChunks_twoParities :
    ∃ enc dec, encodeChunks (twoParities [2, 3] [4]) (range 5) unencoded = some (0, enc) ∧
      minimumToDecode 5 (twoParities [2, 3] [4]) {0} {1, 3, 4} ∅ = (0, {1, 3, 4}) ∧
      decodeChunks 5 (twoParities [2, 3] [4]) {0} (enc.restrict {1, 3, 4})
        (ErasureCode.prepareDecoded 5 (enc.restrict {1, 3, 4}) fun _ => [0]) = some (0, dec) ∧
      dec 0 = enc 0 ∧ enc 0 = some [1] := by
  have hmin : minimumToDecode 5 (twoParities [2, 3] [4]) {0} {1, 3, 4} ∅ = (0, {1, 3, 4}) := by
    decide +kernel
  have hvalue : (encodeChunks (twoParities [2, 3] [4]) (range 5) unencoded).map
      (fun r => r.2 0) = some (some [1]) := by decide +kernel
  obtain ⟨enc, hrun, hstacked, hdecodes⟩ := decodeChunks_of_minimumToDecode
    (twoParities_wellFormed (by decide) (by decide) rfl rfl) (twoParities_sound [2, 3] [4])
    unencoded_size
  have hcodes := hstacked ⟨by simp [twoParities, Layer.chunks], by decide⟩
  obtain ⟨-, dec, hdec, heq⟩ := hdecodes hcodes {0} (by decide) _ _ hmin (fun _ => [0]) fun _ => rfl
  rw [hrun] at hvalue
  exact ⟨enc, dec, hrun, hmin, hdec, heq 0 (by decide), Option.some_inj.1 hvalue⟩

/-- **Layers that overlap.**  The second of the layers `DDc__` and `__cDD` writes its parity over
that of the first.  Chunk 0 is then rebuilt from a parity that is not its own, and both functions
return `0`. -/
theorem overlap_wrong :
    (∀ layer ∈ twoParities [3, 4] [2], layer.WellFormed 5 ∧ layer.Sound 1) ∧
    ∃ enc dec, encodeChunks (twoParities [3, 4] [2]) (range 5) unencoded = some (0, enc) ∧
      minimumToDecode 5 (twoParities [3, 4] [2]) {0} {1, 2, 3, 4} ∅ = (0, {1, 2}) ∧
      decodeChunks 5 (twoParities [3, 4] [2]) {0} (enc.restrict {1, 2})
        (ErasureCode.prepareDecoded 5 (enc.restrict {1, 2}) fun _ => [0]) = some (0, dec) ∧
      enc 0 = some [Byte.ofNat 1] ∧ dec 0 = some [Byte.ofNat 14] := by
  refine ⟨fun layer hl => ⟨twoParities_wellFormed (by decide) (by decide) rfl rfl layer hl,
    twoParities_sound _ _ layer hl⟩, ?_⟩
  have hrun : ((encodeChunks (twoParities [3, 4] [2]) (range 5) unencoded).bind fun e =>
      (decodeChunks 5 (twoParities [3, 4] [2]) {0} (e.2.restrict {1, 2})
        (ErasureCode.prepareDecoded 5 (e.2.restrict {1, 2}) fun _ => [0])).map fun d =>
          (e.1, d.1, e.2 0, d.2 0)) =
      some (0, 0, some [Byte.ofNat 1], some [Byte.ofNat 14]) := by decide +kernel
  obtain ⟨⟨r, enc⟩, henc, hrun⟩ := Option.bind_eq_some_iff.1 hrun
  obtain ⟨⟨r', dec⟩, hdec, heq⟩ := Option.map_eq_some_iff.1 hrun
  simp only [Prod.mk.injEq] at heq
  obtain ⟨rfl, rfl, henc0, hdec0⟩ := heq
  exact ⟨enc, dec, henc, by decide +kernel, hdec, henc0, hdec0⟩

end Ceph.Lrc
