import Ceph.ErasureCode.Lrc.Decode

/-!
# The LRC plugin: what `encode_chunks` leaves

`encode_chunks` encodes the layers one after the other, from the last one that has all the
wanted chunks on.  A layer changes its coding chunks alone.  So the chunks of a layer stay the
codeword they were made, if no later layer codes one of them (`encodeChunks_spec`).
-/

namespace Ceph.Lrc

open Finset Option

/-- The codec leaves the data as it is and makes a codeword of it. -/
def Encodes (code : LayerCode) (b : ℕ) (Codeword : List Buffer → Prop) : Prop :=
  ∀ (want : Finset ℕ) (encoded : ChunkMap),
    (∀ j < code.k + code.m, ∃ buf, encoded j = some buf ∧ buf.length = b) →
    ∃ out, code.encodeChunks want encoded = some (0, out) ∧ (∀ j < code.k, out j = encoded j) ∧
      Codeword ((List.range (code.k + code.m)).map out.at)

/-- The codec of the layer makes and rebuilds the codewords of an MDS code. -/
def Layer.Sound (layer : Layer) (b : ℕ) : Prop :=
  ∃ Codeword, Mds layer.erasureCode b Codeword ∧ Encodes layer.erasureCode b Codeword

/-- No layer codes a chunk of an earlier one, and none but the first has all the chunks. -/
structure Stacked (n : ℕ) (layers : List Layer) : Prop where
  apart : layers.Pairwise fun earlier later => ∀ c ∈ later.coding, c ∉ earlier.chunks
  proper : ∀ layer ∈ layers.tail, ¬ range n ⊆ layer.chunksAsSet

variable {layer : Layer} {n b : ℕ} {encoded : ChunkMap} {layers : List Layer} {want : Finset ℕ}

/-! ## Which layers -/

theorem mem_layersFrom {l acc : List Layer} (h : layer ∈ layersFrom want l acc) :
    layer ∈ l ∨ layer ∈ acc := by
  induction l generalizing acc with
  | nil => exact .inr h
  | cons first l ih =>
    rw [layersFrom] at h
    split at h
    · rcases List.mem_cons.1 h with rfl | h
      · exact .inl List.mem_cons_self
      · exact .inr h
    · rcases ih h with h | h
      · exact .inl (List.mem_cons_of_mem _ h)
      · rcases List.mem_cons.1 h with rfl | h
        · exact .inl List.mem_cons_self
        · exact .inr h

theorem layersFrom_append_singleton {l : List Layer} (hl : ∀ layer ∈ l, ¬ want ⊆ layer.chunksAsSet)
    (first : Layer) (acc : List Layer) :
    layersFrom want (l ++ [first]) acc = first :: (l.reverse ++ acc) := by
  induction l generalizing acc with
  | nil =>
    rw [List.nil_append, layersFrom]
    split
    · rfl
    · rfl
  | cons layer l ih =>
    rw [List.cons_append, layersFrom, if_neg (hl layer List.mem_cons_self),
      ih fun l' hl' => hl l' (List.mem_cons_of_mem _ hl')]
    simp

/-- A stack is encoded from its first layer on. -/
theorem Stacked.layersFrom_eq (h : Stacked n layers) :
    layersFrom (range n) layers.reverse [] = layers := by
  cases layers with
  | nil => rfl
  | cons first rest =>
    have hrest : ∀ layer ∈ rest.reverse, ¬ range n ⊆ layer.chunksAsSet := fun l hl =>
      h.proper l (List.mem_reverse.1 hl)
    rw [List.reverse_cons, layersFrom_append_singleton hrest]
    simp

/-! ## One layer -/

/-- A layer turns its chunks into a codeword and changes nothing but its coding chunks. -/
theorem layer_encodes (hwf : layer.WellFormed n) (hsound : layer.Sound b) (want : Finset ℕ)
    (hsize : ∀ i < n, ∃ buf, encoded i = some buf ∧ buf.length = b) :
    ∃ out, layer.erasureCode.encodeChunks (layerWant layer want) (layerView layer encoded) =
        some (0, out) ∧
      (∀ i < n, ∃ buf, writeBack layer out encoded i = some buf ∧ buf.length = b) ∧
      (∀ c ∉ layer.coding, writeBack layer out encoded c = encoded c) ∧
      layer.Codes b (writeBack layer out encoded) := by
  obtain ⟨Codeword, hmds, hencodes⟩ := hsound
  have hview : ∀ c ∈ layer.chunks, ∀ j, layer.chunks[j]? = some c →
      layerView layer encoded j = encoded c := by
    intro c hc j hj
    obtain ⟨buf, hbuf, -⟩ := hsize c (hwf.lt c hc)
    rw [layerView, hj, map_some, ChunkMap.at_some hbuf, hbuf]
  obtain ⟨out, hout, hdata, hword⟩ := hencodes (layerWant layer want) (layerView layer encoded) (by
    intro j hj
    have hlt : j < layer.chunks.length := by rw [hwf.length]; exact hj
    rw [hview _ (List.getElem_mem hlt) j (List.getElem?_eq_getElem hlt)]
    exact hsize _ (hwf.lt _ (List.getElem_mem hlt)))
  obtain ⟨hin, hnot⟩ := writeBack_spec hwf.nodup out encoded
  -- position by position the layer holds what the codec has written
  have hwritten : layer.chunks.map (writeBack layer out encoded).at =
      (List.range (layer.erasureCode.k + layer.erasureCode.m)).map out.at := by
    refine List.ext_getElem (by simp [hwf.length]) fun j hj _ => ?_
    rw [List.length_map] at hj
    simp [ChunkMap.at_some (hin j _ (List.getElem?_eq_getElem hj))]
  refine ⟨out, hout, fun i hi => ?_, fun c hc => ?_, Codeword, hmds, hwritten ▸ hword⟩
  · by_cases hil : i ∈ layer.chunks
    · obtain ⟨j, hj, rfl⟩ := List.getElem_of_mem hil
      refine ⟨_, hin j _ (List.getElem?_eq_getElem hj), hmds.size _ hword _ ?_⟩
      exact List.mem_map_of_mem (List.mem_range.2 (hwf.length ▸ hj))
    · rw [hnot i hil]
      exact hsize i hi
  · by_cases hcl : c ∈ layer.chunks
    · obtain ⟨j, hj, rfl⟩ := List.getElem_of_mem ((List.mem_append.1 hcl).resolve_right hc)
      have hpos : layer.chunks[j]? = some layer.data[j] := by
        rw [Layer.chunks, List.getElem?_append_left hj, List.getElem?_eq_getElem hj]
      obtain ⟨buf, hbuf, -⟩ := hsize _ (hwf.lt _ hcl)
      have hkept := hdata j (hwf.data ▸ hj)
      rw [hview _ hcl j hpos, hbuf] at hkept
      rw [hin j _ hpos, ChunkMap.at_some hkept, hbuf]
    · exact hnot c hcl

/-! ## All layers -/

theorem Layer.Codes.congr {enc enc' : ChunkMap} (h : layer.Codes b enc)
    (heq : ∀ c ∈ layer.chunks, enc' c = enc c) : layer.Codes b enc' := by
  obtain ⟨Codeword, hmds, hword⟩ := h
  have hsame : layer.chunks.map enc'.at = layer.chunks.map enc.at :=
    List.map_congr_left fun c hc => by rw [ChunkMap.at, ChunkMap.at, heq c hc]
  exact ⟨Codeword, hmds, hsame ▸ hword⟩

/-- The loop succeeds and changes nothing but coding chunks; if no layer codes a chunk of an
earlier one, it leaves a codeword of every layer. -/
theorem encodeLayers_spec (hwf : ∀ layer ∈ layers, layer.WellFormed n)
    (hsound : ∀ layer ∈ layers, layer.Sound b) (want : Finset ℕ)
    (hsize : ∀ i < n, ∃ buf, encoded i = some buf ∧ buf.length = b) :
    ∃ enc, encodeLayers want layers encoded = some (0, enc) ∧
      (∀ i < n, ∃ buf, enc i = some buf ∧ buf.length = b) ∧
      (∀ c, (∀ layer ∈ layers, c ∉ layer.coding) → enc c = encoded c) ∧
      ((layers.Pairwise fun earlier later => ∀ c ∈ later.coding, c ∉ earlier.chunks) →
        ∀ layer ∈ layers, layer.Codes b enc) := by
  induction layers generalizing encoded with
  | nil => exact ⟨encoded, rfl, hsize, fun _ _ => rfl, by simp⟩
  | cons layer layers ih =>
    obtain ⟨out, hout, hsize', hkept, hcodes⟩ :=
      layer_encodes (hwf layer List.mem_cons_self) (hsound layer List.mem_cons_self) want hsize
    obtain ⟨enc, hrun, hencsize, hunchanged, hrest⟩ := ih
      (fun l hl => hwf l (List.mem_cons_of_mem _ hl))
      (fun l hl => hsound l (List.mem_cons_of_mem _ hl)) hsize'
    refine ⟨enc, ?_, hencsize, fun c hc => ?_, fun hapart l hl => ?_⟩
    · simp only [encodeLayers, hout, bind_eq_bind, bind_some, ne_eq, not_true_eq_false, if_false,
        hrun]
    · rw [hunchanged c fun l hl => hc l (List.mem_cons_of_mem _ hl),
        hkept c (hc layer List.mem_cons_self)]
    · obtain ⟨hlater, hapart⟩ := List.pairwise_cons.1 hapart
      rcases List.mem_cons.1 hl with rfl | hl
      · exact hcodes.congr fun c hc => hunchanged c fun l' hl' hcoding => hlater l' hl' c hcoding hc
      · exact hrest hapart l hl

/-- **What `encode_chunks` leaves.**  It succeeds, and in a stack every layer has a codeword. -/
theorem encodeChunks_spec (hwf : ∀ layer ∈ layers, layer.WellFormed n)
    (hsound : ∀ layer ∈ layers, layer.Sound b)
    (hsize : ∀ i < n, ∃ buf, encoded i = some buf ∧ buf.length = b) :
    ∃ enc, encodeChunks layers (range n) encoded = some (0, enc) ∧
      (∀ i < n, ∃ buf, enc i = some buf ∧ buf.length = b) ∧
      (Stacked n layers → ∀ layer ∈ layers, layer.Codes b enc) := by
  have hmem : ∀ layer ∈ layersFrom (range n) layers.reverse [], layer ∈ layers := fun layer hl =>
    List.mem_reverse.1 ((mem_layersFrom hl).resolve_right List.not_mem_nil)
  obtain ⟨enc, hrun, hencsize, -, hcodes⟩ := encodeLayers_spec (fun l hl => hwf l (hmem l hl))
    (fun l hl => hsound l (hmem l hl)) (range n) hsize
  refine ⟨enc, hrun, hencsize, fun hstacked => ?_⟩
  rw [hstacked.layersFrom_eq] at hcodes
  exact hcodes hstacked.apart

end Ceph.Lrc
