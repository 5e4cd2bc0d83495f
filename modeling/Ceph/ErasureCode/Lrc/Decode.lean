import Ceph.Lib.Peeling
import Ceph.ErasureCode.Lrc.Layers

/-!
# The LRC plugin: what `decode_chunks` recovers

`decode_chunks` is peeling (`Ceph.Peeling`): a layer with `k + m` chunks restores
all of them as soon as no more than `m` are erased.  If the stripe is a codeword
of every layer, and the codec of every layer rebuilds codewords, then whatever is
not left over by the peeling holds the encoded bytes, and `decode_chunks` returns
`0` as soon as nothing wanted is left over (`decodeChunks_spec`).
-/

namespace Ceph.Lrc

open Finset Peeling Option

/-- The chunks of a layer are different chunks of the stripe, and its codec has as
many data and coding chunks as the layer. -/
structure Layer.WellFormed (n : ℕ) (layer : Layer) : Prop where
  nodup : layer.chunks.Nodup
  lt : ∀ c ∈ layer.chunks, c < n
  data : layer.data.length = layer.erasureCode.k
  coding : layer.coding.length = layer.erasureCode.m

/-- A codec for words of `k + m` chunks of `b` bytes that is MDS for the code
`Codeword`: `k` chunks of a codeword are enough for `decode_chunks` to rebuild the
others. -/
structure Mds (code : LayerCode) (b : ℕ) (Codeword : List Buffer → Prop) : Prop where
  length : ∀ w, Codeword w → w.length = code.k + code.m
  size : ∀ w, Codeword w → ∀ buf ∈ w, buf.length = b
  rebuild : ∀ w, Codeword w → ∀ (want : Finset ℕ) (chunks decoded : ChunkMap),
    (∀ j < code.k + code.m, chunks j = none ∨ chunks j = w[j]?) →
    (∀ j < code.k + code.m, ∃ buf, decoded j = some buf ∧ buf.length = b ∧
      (chunks j ≠ none → chunks j = some buf)) →
    code.k ≤ ((range (code.k + code.m)).filter fun j => (chunks j).isSome).card →
    ∃ out, code.decodeChunks want chunks decoded = some (0, out) ∧
      ∀ j < code.k + code.m, out j = w[j]?

/-- The stripe restricted to a layer is a codeword of an MDS code of the layer's
codec. -/
def Layer.Codes (layer : Layer) (b : ℕ) (enc : ChunkMap) : Prop :=
  ∃ Codeword, Mds layer.erasureCode b Codeword ∧ Codeword (layer.chunks.map enc.at)

variable {layer : Layer}

theorem Layer.WellFormed.length {n : ℕ} (h : layer.WellFormed n) :
    layer.chunks.length = layer.erasureCode.k + layer.erasureCode.m := by
  rw [Layer.chunks, List.length_append, h.data, h.coding]

theorem Layer.WellFormed.card {n : ℕ} (h : layer.WellFormed n) :
    layer.chunksAsSet.card = layer.erasureCode.k + layer.erasureCode.m := by
  rw [Layer.chunksAsSet, List.toFinset_card_of_nodup h.nodup, h.length]

theorem Layer.mem_chunksAsSet {c : ℕ} :
    c ∈ layer.chunksAsSet ↔ c ∈ layer.chunks := List.mem_toFinset

/-! ## Writing back -/

/-- Position by position, `writeBack` assigns the chunks of the layer and nothing
else. -/
theorem writeBack_spec (hnd : layer.chunks.Nodup) (layerChunks chunks : ChunkMap) :
    (∀ j c, layer.chunks[j]? = some c →
      writeBack layer layerChunks chunks c = some (layerChunks.at j)) ∧
    ∀ c ∉ layer.chunks, writeBack layer layerChunks chunks c = chunks c := by
  rw [writeBack]
  generalize layer.chunks = l at hnd
  induction l using List.reverseRecOn with
  | nil => exact ⟨by simp, by simp⟩
  | append_singleton l a ih =>
    obtain ⟨hndl, -, hdisj⟩ := List.nodup_append.1 hnd
    obtain ⟨hin, hout⟩ := ih hndl
    have ha : a ∉ l := fun hmem => hdisj a hmem a (by simp) rfl
    simp only [List.zipIdx_append, List.foldl_append, zero_add, List.zipIdx_singleton,
      List.foldl_cons, List.foldl_nil]
    refine ⟨fun j c hjc => ?_, fun c hc => ?_⟩
    · by_cases hj : j < l.length
      · rw [List.getElem?_append_left hj] at hjc
        have hca : c ≠ a := fun h => ha (h ▸ List.mem_of_getElem? hjc)
        rw [Function.update_of_ne hca, hin j c hjc]
      · rw [List.getElem?_append_right (by omega)] at hjc
        obtain ⟨h0, rfl⟩ : j - l.length = 0 ∧ a = c := by
          simpa [List.getElem?_singleton] using hjc
        rw [Function.update_self, show j = l.length by omega]
    · simp only [List.mem_append, List.mem_singleton, not_or] at hc
      rw [Function.update_of_ne hc.2, hout c hc.1]

/-! ## One layer -/

section Decode

variable {n b : ℕ} {enc : ChunkMap} {want : Finset ℕ}

/-- Everything but the erasures is as encoded, and all buffers have the right
size. -/
structure Recovered (n b : ℕ) (enc : ChunkMap) (erasures : Finset ℕ) (decoded : ChunkMap) :
    Prop where
  size : ∀ i < n, ∃ buf, decoded i = some buf ∧ buf.length = b
  eq : ∀ i < n, i ∉ erasures → decoded i = enc i

/-- The chunks of the layer that are not erased, counted by position. -/
theorem card_present (h : layer.WellFormed n) (erasures : Finset ℕ) (decoded : ChunkMap) :
    ((range (layer.erasureCode.k + layer.erasureCode.m)).filter fun j =>
      (layerChunks layer erasures decoded j).isSome).card =
      (layer.chunksAsSet \ erasures).card := by
  refine card_bij (fun j _ => layer.chunks.getD j 0) ?_ ?_ ?_
  · intro j hj
    obtain ⟨hjr, hsome⟩ := mem_filter.1 hj
    have hlt : j < layer.chunks.length := by
      rw [h.length]
      exact mem_range.1 hjr
    simp only [layerChunks, List.getElem?_eq_getElem hlt, bind_some] at hsome
    rw [List.getD_eq_getElem?_getD, List.getElem?_eq_getElem hlt, getD_some,
      mem_sdiff, Layer.mem_chunksAsSet]
    refine ⟨List.getElem_mem hlt, fun hc => ?_⟩
    rw [if_pos hc] at hsome
    cases hsome
  · intro j hj j' hj' heq
    have hlt : j < layer.chunks.length := by
      rw [h.length]
      exact mem_range.1 (mem_filter.1 hj).1
    have hlt' : j' < layer.chunks.length := by
      rw [h.length]
      exact mem_range.1 (mem_filter.1 hj').1
    simp only [List.getD_eq_getElem?_getD, List.getElem?_eq_getElem hlt,
      List.getElem?_eq_getElem hlt', getD_some] at heq
    exact (List.Nodup.getElem_inj_iff h.nodup).1 heq
  · intro c hc
    obtain ⟨hmem, hne⟩ := mem_sdiff.1 hc
    obtain ⟨j, hj, rfl⟩ := List.getElem_of_mem (Layer.mem_chunksAsSet.1 hmem)
    refine ⟨j, mem_filter.2 ⟨mem_range.2 (by rw [← h.length]; exact hj), ?_⟩, ?_⟩
    · simp only [layerChunks, List.getElem?_eq_getElem hj, bind_some, if_neg hne, isSome_some]
    · rw [List.getD_eq_getElem?_getD, List.getElem?_eq_getElem hj, getD_some]

/-- A layer with at most `m` erasures rebuilds all its chunks. -/
theorem layer_rebuilds (want : Finset ℕ) (hwf : layer.WellFormed n) (hcode : layer.Codes b enc)
    (henc : ∀ i < n, (enc i).isSome) {erasures : Finset ℕ} {decoded : ChunkMap}
    (hrec : Recovered n b enc erasures decoded)
    (hle : (layer.chunksAsSet ∩ erasures).card ≤ layer.erasureCode.m) :
    ∃ out, layer.erasureCode.decodeChunks (layerWant layer want)
        (layerChunks layer erasures decoded) (layerView layer decoded) = some (0, out) ∧
      Recovered n b enc (erasures \ layer.chunksAsSet) (writeBack layer out decoded) := by
  obtain ⟨Codeword, hmds, hword⟩ := hcode
  have hat : ∀ c ∈ layer.chunks, c ∉ erasures → decoded.at c = enc.at c := by
    intro c hc hne
    rw [ChunkMap.at, ChunkMap.at, hrec.eq c (hwf.lt c hc) hne]
  have hview : ∀ j < layer.erasureCode.k + layer.erasureCode.m, ∃ c ∈ layer.chunks,
      layer.chunks[j]? = some c ∧ (layer.chunks.map enc.at)[j]? = some (enc.at c) := by
    intro j hj
    have hlt : j < layer.chunks.length := by rw [hwf.length]; exact hj
    refine ⟨layer.chunks[j], List.getElem_mem hlt, List.getElem?_eq_getElem hlt, ?_⟩
    rw [List.getElem?_map, List.getElem?_eq_getElem hlt, map_some]
  obtain ⟨out, hout, hval⟩ := hmds.rebuild _ hword (layerWant layer want)
    (layerChunks layer erasures decoded) (layerView layer decoded) (by
      intro j hj
      obtain ⟨c, hc, hjc, hw⟩ := hview j hj
      rw [hw, layerChunks, hjc, bind_some]
      by_cases hce : c ∈ erasures
      · exact .inl (if_pos hce)
      · exact .inr (by rw [if_neg hce, hat c hc hce]))
    (by
      intro j hj
      obtain ⟨c, hc, hjc, -⟩ := hview j hj
      obtain ⟨buf, hbuf, hlen⟩ := hrec.size c (hwf.lt c hc)
      refine ⟨buf, by rw [layerView, hjc, map_some, ChunkMap.at_some hbuf], hlen, ?_⟩
      rw [layerChunks, hjc, bind_some]
      by_cases hce : c ∈ erasures
      · rw [if_pos hce]
        exact fun h => absurd rfl h
      · rw [if_neg hce, ChunkMap.at_some hbuf]
        exact fun _ => rfl)
    (by
      rw [card_present hwf]
      have hsplit := card_sdiff_add_card_inter layer.chunksAsSet erasures
      have hcard := hwf.card
      omega)
  obtain ⟨hin, hnot⟩ := writeBack_spec hwf.nodup out decoded
  refine ⟨out, hout, ?_⟩
  -- the chunks of the layer hold the codeword now, the others are as before
  have hlayer : ∀ c ∈ layer.chunks, writeBack layer out decoded c = enc c := by
    intro c hc
    obtain ⟨j, hj, hjc⟩ := List.getElem_of_mem hc
    have hjc' : layer.chunks[j]? = some c := by rw [List.getElem?_eq_getElem hj, hjc]
    have hoj : out j = some (enc.at c) := by
      rw [hval j (by rw [← hwf.length]; exact hj), List.getElem?_map, hjc', map_some]
    obtain ⟨buf, hbuf⟩ := isSome_iff_exists.1 (henc c (hwf.lt c hc))
    rw [hin j c hjc', ChunkMap.at_some hoj, ChunkMap.at_some hbuf, hbuf]
  have hsize : ∀ c ∈ layer.chunks, ∃ buf, enc c = some buf ∧ buf.length = b := by
    intro c hc
    obtain ⟨buf, hbuf⟩ := isSome_iff_exists.1 (henc c (hwf.lt c hc))
    refine ⟨buf, hbuf, hmds.size _ hword buf (List.mem_map.2 ⟨c, hc, ?_⟩)⟩
    rw [ChunkMap.at_some hbuf]
  constructor
  · intro i hi
    by_cases hil : i ∈ layer.chunks
    · rw [hlayer i hil]
      exact hsize i hil
    · rw [hnot i hil]
      exact hrec.size i hi
  · intro i hi hne
    by_cases hil : i ∈ layer.chunks
    · exact hlayer i hil
    · rw [hnot i hil]
      exact hrec.eq i hi fun hie =>
        hne (mem_sdiff.2 ⟨hie, fun hc => hil (Layer.mem_chunksAsSet.1 hc)⟩)

/-! ## All layers -/

/-- The group a layer is for peeling. -/
def Layer.group (layer : Layer) : Finset ℕ × ℕ := (layer.chunksAsSet, layer.erasureCode.m)

section

variable {layers : List Layer} (hwf : ∀ layer ∈ layers, layer.WellFormed n)
  (hcode : ∀ layer ∈ layers, layer.Codes b enc)

include hwf hcode

/-- If peeling leaves nothing wanted, the loop ends with the wanted chunks.  The
variable `want_to_read_erasures` is up to date, or still empty. -/
theorem decodeLayers_spec (henc : ∀ i < n, (enc i).isSome) (hwant : want ⊆ range n)
    {erasures wantErasures : Finset ℕ} {decoded : ChunkMap}
    (hrec : Recovered n b enc erasures decoded)
    (hsync : wantErasures = ∅ ∨ wantErasures = erasures ∩ want)
    (hpeel : Disjoint want (peel (layers.map Layer.group) erasures)) :
    ∃ dec, decodeLayers want layers erasures wantErasures decoded = some (0, dec) ∧
      ∀ i ∈ want, dec i = enc i := by
  induction layers generalizing erasures wantErasures decoded with
  | nil =>
    have hdisj : erasures ∩ want = ∅ := by
      rw [Finset.inter_comm]
      exact Finset.disjoint_iff_inter_eq_empty.1 hpeel
    have hempty : wantErasures = ∅ := hsync.elim id fun h => h.trans hdisj
    refine ⟨decoded, by rw [hempty]; rfl, fun i hi => ?_⟩
    exact hrec.eq i (mem_range.1 (hwant hi)) (disjoint_left.1 hpeel hi)
  | cons layer layers ih =>
    have hwf' := fun l hl => hwf l (List.mem_cons_of_mem layer hl)
    have hcode' := fun l hl => hcode l (List.mem_cons_of_mem layer hl)
    rw [List.map_cons, peel_cons] at hpeel
    rw [decodeLayers]
    by_cases hgt : (layer.chunksAsSet ∩ erasures).card > layer.erasureCode.m
    · rw [restore_of_lt layer.group hgt] at hpeel
      simp only [if_pos hgt]
      exact ih hwf' hcode' hrec hsync hpeel
    have hle : (layer.chunksAsSet ∩ erasures).card ≤ layer.erasureCode.m := by omega
    rw [restore_of_le layer.group hle] at hpeel
    simp only [if_neg hgt]
    by_cases hzero : (layer.chunksAsSet ∩ erasures).card = 0
    · have hsame : erasures \ layer.chunksAsSet = erasures := by
        rw [Finset.sdiff_eq_self_iff_disjoint, Finset.disjoint_iff_inter_eq_empty,
          Finset.inter_comm]
        exact Finset.card_eq_zero.1 hzero
      rw [Layer.group, hsame] at hpeel
      rw [if_pos hzero]
      exact ih hwf' hcode' hrec hsync hpeel
    · obtain ⟨out, hout, hrec'⟩ := layer_rebuilds want
        (hwf layer List.mem_cons_self) (hcode layer List.mem_cons_self) henc hrec hle
      rw [if_neg hzero, hout]
      simp only [bind_eq_bind, bind_some, ne_eq, not_true_eq_false, if_false]
      by_cases hbreak : ((erasures \ layer.chunksAsSet) ∩ want).card = 0
      · rw [if_pos hbreak]
        refine ⟨_, rfl, fun i hi => hrec'.eq i (mem_range.1 (hwant hi)) fun hie => ?_⟩
        have := mem_inter.2 ⟨hie, hi⟩
        rw [Finset.card_eq_zero.1 hbreak] at this
        exact absurd this (notMem_empty i)
      · rw [if_neg hbreak]
        exact ih hwf' hcode' hrec' (.inr rfl) hpeel

/-- **What `decode_chunks` recovers.**  From the chunks `m` of a stripe that is a
codeword of every layer it returns `0` and the wanted chunks, if peeling the
chunks outside `m` leaves none of the wanted ones. -/
theorem decodeChunks_spec (henc : ∀ i < n, ∃ buf, enc i = some buf ∧ buf.length = b)
    (hwant : want ⊆ range n) {m : Finset ℕ} {fresh : ℕ → Buffer}
    (hfresh : ∀ i, (fresh i).length = b)
    (hpeel : Disjoint want (peel (layers.reverse.map Layer.group) (range n \ m))) :
    ∃ dec, decodeChunks n layers want (enc.restrict m)
        (ErasureCode.prepareDecoded n (enc.restrict m) fresh) = some (0, dec) ∧
      ∀ i ∈ want, dec i = enc i := by
  have hsome : ∀ i < n, (enc i).isSome := by
    intro i hi
    obtain ⟨buf, hbuf, -⟩ := henc i hi
    rw [hbuf]
    rfl
  have heras : (range n).filter (fun i => (enc.restrict m i).isNone) = range n \ m := by
    ext i
    rw [mem_filter, mem_sdiff, ChunkMap.restrict]
    refine and_congr_right fun hi => ?_
    obtain ⟨buf, hbuf, -⟩ := henc i (mem_range.1 hi)
    by_cases him : i ∈ m <;> simp [him, hbuf]
  rw [decodeChunks, heras]
  refine decodeLayers_spec (fun l hl => hwf l (List.mem_reverse.1 hl))
    (fun l hl => hcode l (List.mem_reverse.1 hl)) hsome hwant ⟨fun i hi => ?_, fun i hi hne => ?_⟩
    (.inl rfl) hpeel
  · obtain ⟨buf, hbuf, hlen⟩ := henc i hi
    rw [ErasureCode.prepareDecoded, if_pos hi, ChunkMap.restrict]
    by_cases him : i ∈ m
    · exact ⟨buf, by rw [if_pos him, hbuf]; rfl, hlen⟩
    · exact ⟨fresh i, by rw [if_neg him]; rfl, hfresh i⟩
  · have him : i ∈ m := by
      by_contra hc
      exact hne (mem_sdiff.2 ⟨mem_range.2 hi, hc⟩)
    obtain ⟨buf, hbuf, -⟩ := henc i hi
    rw [ErasureCode.prepareDecoded, if_pos hi, ChunkMap.restrict, if_pos him, hbuf]
    rfl

end

end Decode

/-! ## What a result of `0` says -/

/-- The layer can repair its erasures, and has some. -/
def Layer.Repairs (layer : Layer) (erasures : Finset ℕ) : Prop :=
  (layer.chunksAsSet ∩ erasures).card ≠ 0 ∧
    (layer.chunksAsSet ∩ erasures).card ≤ layer.erasureCode.m

instance (erasures : Finset ℕ) : Decidable (layer.Repairs erasures) :=
  inferInstanceAs (Decidable (_ ∧ _))

/-- The layers whose codec `decode_chunks` has run with success, last layer first. -/
def repairedBy (wantToRead : Finset ℕ) : List Layer → Finset ℕ → ChunkMap → List Layer
  | [], _, _ => []
  | layer :: rest, erasures, decoded =>
    if layer.Repairs erasures then
      match layer.erasureCode.decodeChunks (layerWant layer wantToRead)
        (layerChunks layer erasures decoded) (layerView layer decoded) with
      | some (0, layerDecoded) =>
        layer :: if ((erasures \ layer.chunksAsSet) ∩ wantToRead).card = 0 then []
          else repairedBy wantToRead rest (erasures \ layer.chunksAsSet)
            (writeBack layer layerDecoded decoded)
      | _ => []
    else repairedBy wantToRead rest erasures decoded

section Outcome

variable {want : Finset ℕ} {rest : List Layer} {erasures wantErasures : Finset ℕ}
  {decoded out : ChunkMap}

theorem decodeLayers_of_not_repairs (h : ¬ layer.Repairs erasures) :
    decodeLayers want (layer :: rest) erasures wantErasures decoded =
      decodeLayers want rest erasures wantErasures decoded := by
  rw [decodeLayers]
  by_cases hgt : (layer.chunksAsSet ∩ erasures).card > layer.erasureCode.m
  · simp only [if_pos hgt]
  · have hzero : (layer.chunksAsSet ∩ erasures).card = 0 := by
      by_contra hne
      exact h ⟨hne, by omega⟩
    simp only [if_neg hgt, if_pos hzero]

/-- Once `want_to_read_erasures` is up to date, or will be, `0` means that every wanted erasure
was repaired. -/
theorem exists_repairedBy {layers : List Layer}
    (h : decodeLayers want layers erasures wantErasures decoded = some (0, out))
    (hsync : wantErasures = erasures ∩ want ∨ ∃ layer ∈ layers, layer.Repairs erasures) {i : ℕ}
    (hi : i ∈ erasures ∩ want) :
    ∃ layer ∈ repairedBy want layers erasures decoded, i ∈ layer.chunksAsSet := by
  induction layers generalizing erasures wantErasures decoded with
  | nil =>
    obtain rfl := hsync.resolve_right (by simp)
    rw [decodeLayers, if_pos (card_pos.2 ⟨i, hi⟩)] at h
    cases h
  | cons layer rest ih =>
    rw [repairedBy]
    by_cases hrep : layer.Repairs erasures
    · rw [if_pos hrep]
      obtain ⟨hne, hle⟩ := hrep
      simp only [decodeLayers, if_neg (not_lt.2 hle), if_neg hne] at h
      obtain ⟨⟨err, layerDecoded⟩, hrun, h⟩ := bind_eq_some_iff.1 h
      by_cases herr : err = 0
      · subst herr
        simp only [hrun, List.mem_cons, exists_eq_or_imp]
        rw [or_iff_not_imp_left]
        intro hnot
        have hleft : i ∈ (erasures \ layer.chunksAsSet) ∩ want :=
          mem_inter.2 ⟨mem_sdiff.2 ⟨(mem_inter.1 hi).1, hnot⟩, (mem_inter.1 hi).2⟩
        have hmore : ((erasures \ layer.chunksAsSet) ∩ want).card ≠ 0 := card_ne_zero_of_mem hleft
        simp only [ne_eq, not_true_eq_false, if_false, if_neg hmore] at h ⊢
        exact ih h (.inl rfl) hleft
      · simp only [if_pos herr] at h
        cases h
        exact absurd rfl herr
    · rw [if_neg hrep]
      rw [decodeLayers_of_not_repairs hrep] at h
      refine ih h (hsync.imp_right ?_) hi
      rintro ⟨l, hl, hl'⟩
      rcases List.mem_cons.1 hl with rfl | hl
      · exact absurd hl' hrep
      · exact ⟨l, hl, hl'⟩

/-- The chunks that are absent. -/
def erased (n : ℕ) (chunks : ChunkMap) : Finset ℕ := (range n).filter fun i => (chunks i).isNone

/-- `decode_chunks` returns `0` only if every wanted chunk was present or is repaired, and `-EIO`
if a wanted chunk is absent and no layer can repair anything. -/
structure Honest (n : ℕ) (layers : List Layer) (want : Finset ℕ) (chunks decoded : ChunkMap) :
    Prop where
  success : ∀ out, decodeChunks n layers want chunks decoded = some (0, out) → ∀ i ∈ want, i < n →
    (chunks i).isSome ∨
      ∃ layer ∈ repairedBy want layers.reverse (erased n chunks) decoded, i ∈ layer.chunksAsSet
  failure : (∃ i ∈ want, i < n ∧ chunks i = none) →
    (∀ layer ∈ layers, ¬ layer.Repairs (erased n chunks)) →
      ∃ out, decodeChunks n layers want chunks decoded = some (-eio, out)

/-- **`decode_chunks` reports its failures** exactly if some layer can repair something whenever a
wanted chunk is absent. -/
theorem honest_iff (n : ℕ) (layers : List Layer) (want : Finset ℕ) (chunks decoded : ChunkMap) :
    Honest n layers want chunks decoded ↔ ((∃ i ∈ want, i < n ∧ chunks i = none) →
      ∃ layer ∈ layers, layer.Repairs (erased n chunks)) := by
  constructor
  · intro hhonest habsent
    by_contra hnone
    push Not at hnone
    have hskip : ∀ l : List Layer, (∀ layer ∈ l, ¬ layer.Repairs (erased n chunks)) →
        decodeLayers want l (erased n chunks) ∅ decoded = some (0, decoded) := by
      intro l hl
      induction l with
      | nil => rfl
      | cons layer l ih =>
        rw [decodeLayers_of_not_repairs (hl layer List.mem_cons_self)]
        exact ih fun k hk => hl k (List.mem_cons_of_mem _ hk)
    obtain ⟨out, hout⟩ := hhonest.failure habsent hnone
    have hzero := hskip layers.reverse fun l hl => hnone l (List.mem_reverse.1 hl)
    cases hzero.symm.trans hout
  · intro hrep
    refine ⟨fun out hout i hi hin => ?_, fun habsent hnone => ?_⟩
    · rw [or_iff_not_imp_left, not_isSome_iff_eq_none]
      intro habsent
      obtain ⟨layer, hl, hl'⟩ := hrep ⟨i, hi, hin, habsent⟩
      refine exists_repairedBy hout (.inr ⟨layer, List.mem_reverse.2 hl, hl'⟩) ?_
      simp [hi, hin, habsent]
    · obtain ⟨layer, hl, hl'⟩ := hrep habsent
      exact absurd hl' (hnone layer hl)

/-- One layer of a data and a coding chunk, both of which are absent: the layer is skipped and
`decode_chunks` returns `0`. -/
theorem not_honest_mirror : decodeChunks 2 [⟨[0], [1], ⟨1, 1, fun _ _ => none, fun _ _ _ => none⟩⟩]
      {0} (fun _ => none) (fun _ => none) = some (0, fun _ => none) ∧
    ¬ Honest 2 [⟨[0], [1], ⟨1, 1, fun _ _ => none, fun _ _ _ => none⟩⟩] {0} (fun _ => none)
      fun _ => none := by
  refine ⟨rfl, fun h => ?_⟩
  obtain ⟨out, hout⟩ := h.failure ⟨0, by decide, by decide, rfl⟩ (by decide)
  cases (show some ((0 : ℤ), fun _ => none) = some (-eio, out) from hout)

end Outcome

end Ceph.Lrc
