import Ceph.ErasureCode.Base

/-!
# The LRC plugin: layers

`minimum_to_decode`, `encode_chunks` and `decode_chunks` of `ErasureCodeLrc.cc`.
A stack of layers codes one set of chunks; every layer has its own codec, which
sees the chunks of the layer as positions `0 … k + m - 1`, data first.  All three
functions walk the layers, decoding from the last to the first.
-/

namespace Ceph.Lrc

/-- What the plugin uses of the `erasure_code` of a layer. -/
structure LayerCode where
  /-- `get_data_chunk_count()` -/
  k : ℕ
  /-- `get_coding_chunk_count()` -/
  m : ℕ
  encodeChunks : Finset ℕ → ChunkMap → Option (ℤ × ChunkMap)
  decodeChunks : Finset ℕ → ChunkMap → ChunkMap → Option (ℤ × ChunkMap)

/-- `ErasureCodeLrc::Layer`. -/
structure Layer where
  data : List ℕ
  coding : List ℕ
  erasureCode : LayerCode

variable (layer : Layer)

/-- `layer.chunks`. -/
def Layer.chunks : List ℕ := layer.data ++ layer.coding

/-- `layer.chunks_as_set`. -/
def Layer.chunksAsSet : Finset ℕ := layer.chunks.toFinset

/-! ## What to read -/

/-- The loop that keeps the first `k` usable chunks of a layer: `count` of them
have been inserted so far. -/
def firstUsable (k : ℕ) (layerMaximum : Finset ℕ) : List ℕ → ℕ → Finset ℕ → Finset ℕ
  | [], _, layerMinimum => layerMinimum
  | j :: rest, count, layerMinimum =>
    if j ∈ layerMaximum then
      if count + 1 = k then insert j layerMinimum
      else firstUsable k layerMaximum rest (count + 1) (insert j layerMinimum)
    else firstUsable k layerMaximum rest count layerMinimum

/-- The variables of the first walk of `minimum_to_decode`. -/
structure Case2 where
  erasuresNotRecovered : Finset ℕ
  erasuresWant : Finset ℕ
  minimum : Finset ℕ

/-- One turn of the loop of case 2: recover erasures with as few chunks as
possible. -/
def case2Step (n : ℕ) (wantToRead : Finset ℕ) (st : Case2) (layer : Layer) : Case2 :=
  let layerWant := wantToRead ∩ layer.chunksAsSet
  if layerWant = ∅ then st
  else
    let layerErasures := layerWant ∩ st.erasuresWant
    if layerErasures = ∅ then { st with minimum := st.minimum ∪ layerWant }
    else
      let erasures := layer.chunksAsSet ∩ st.erasuresNotRecovered
      if erasures.card > layer.erasureCode.m then st
      else
        let layerMaximum := layer.chunksAsSet \ st.erasuresNotRecovered
        let layerMinimum := firstUsable layer.erasureCode.k layerMaximum (List.range n) 0 ∅
        { erasuresNotRecovered := st.erasuresNotRecovered \ erasures
          erasuresWant := st.erasuresWant \ erasures
          minimum := st.minimum ∪ layerMinimum }

/-- One turn of the loop of case 3: recover whatever can be recovered. -/
def case3Step (erasuresTotal : Finset ℕ) (layer : Layer) : Finset ℕ :=
  let layerErasures := layer.chunksAsSet ∩ erasuresTotal
  if layerErasures = ∅ then erasuresTotal
  else if layerErasures.card > 0 ∧ layerErasures.card ≤ layer.erasureCode.m then
    erasuresTotal \ layerErasures
  else erasuresTotal

/-- `ErasureCodeLrc::minimum_to_decode`: the return value and what is left in
`*minimum`. -/
def minimumToDecode (n : ℕ) (layers : List Layer) (wantToRead availableChunks minimum : Finset ℕ) :
    ℤ × Finset ℕ :=
  let erasuresTotal := (Finset.range n).filter (· ∉ availableChunks)
  let erasuresWant := erasuresTotal.filter (· ∈ wantToRead)
  if erasuresWant = ∅ then (0, wantToRead)
  else
    let st := layers.reverse.foldl (case2Step n wantToRead) ⟨erasuresTotal, erasuresWant, minimum⟩
    if st.erasuresWant = ∅ then (0, (st.minimum ∪ wantToRead) \ erasuresTotal)
    else if layers.reverse.foldl case3Step erasuresTotal = ∅ then (0, availableChunks)
    else (-eio, st.minimum)

/-! ## Coding -/

/-- `layer_encoded[j] = (*encoded)[*c]` for the chunks of the layer. -/
def layerView (chunks : ChunkMap) : ChunkMap :=
  fun j => (layer.chunks[j]?).map chunks.at

/-- `(*decoded)[*c] = layer_decoded[j]` for the chunks of the layer. -/
def writeBack (layerChunks chunks : ChunkMap) : ChunkMap :=
  layer.chunks.zipIdx.foldl (fun acc cj => Function.update acc cj.1 (some (layerChunks.at cj.2)))
    chunks

/-- The positions in the layer of the chunks in `want`. -/
def layerWant (want : Finset ℕ) : Finset ℕ :=
  (Finset.range layer.chunks.length).filter fun j => ∃ c ∈ layer.chunks[j]?, c ∈ want

/-- The layers `encode_chunks` works on: from the last one that covers
`want_to_encode` on, or all.  The first argument is what is left of the layers,
last first. -/
def layersFrom (wantToEncode : Finset ℕ) : List Layer → List Layer → List Layer
  | [], acc => acc
  | layer :: rest, acc =>
    if wantToEncode ⊆ layer.chunksAsSet then layer :: acc
    else layersFrom wantToEncode rest (layer :: acc)

/-- The loop of `encode_chunks`.  The chunks of `layer_encoded` share their memory
with those of `*encoded`, so what the layer's codec writes is seen there. -/
def encodeLayers (wantToEncode : Finset ℕ) : List Layer → ChunkMap → Option (ℤ × ChunkMap)
  | [], encoded => some (0, encoded)
  | layer :: rest, encoded => do
    let (err, layerEncoded) ←
      layer.erasureCode.encodeChunks (layerWant layer wantToEncode) (layerView layer encoded)
    let encoded := writeBack layer layerEncoded encoded
    if err ≠ 0 then some (err, encoded) else encodeLayers wantToEncode rest encoded

/-- `ErasureCodeLrc::encode_chunks`. -/
def encodeChunks (layers : List Layer) (wantToEncode : Finset ℕ) (encoded : ChunkMap) :
    Option (ℤ × ChunkMap) :=
  encodeLayers wantToEncode (layersFrom wantToEncode layers.reverse []) encoded

/-- `layer_chunks`: the chunks of the layer that are not erased. -/
def layerChunks (erasures : Finset ℕ) (decoded : ChunkMap) : ChunkMap :=
  fun j => (layer.chunks[j]?).bind fun c => if c ∈ erasures then none else some (decoded.at c)

/-- The loop of `decode_chunks`, last layer first.  `want_to_read_erasures` is
only brought up to date by a layer that decodes. -/
def decodeLayers (wantToRead : Finset ℕ) :
    List Layer → Finset ℕ → Finset ℕ → ChunkMap → Option (ℤ × ChunkMap)
  | [], _, wantToReadErasures, decoded =>
    some (if wantToReadErasures.card > 0 then -eio else 0, decoded)
  | layer :: rest, erasures, wantToReadErasures, decoded =>
    let layerErasures := layer.chunksAsSet ∩ erasures
    if layerErasures.card > layer.erasureCode.m then
      decodeLayers wantToRead rest erasures wantToReadErasures decoded
    else if layerErasures.card = 0 then
      decodeLayers wantToRead rest erasures wantToReadErasures decoded
    else do
      let (err, layerDecoded) ← layer.erasureCode.decodeChunks (layerWant layer wantToRead)
        (layerChunks layer erasures decoded) (layerView layer decoded)
      if err ≠ 0 then some (err, decoded)
      else
        let decoded := writeBack layer layerDecoded decoded
        let erasures := erasures \ layer.chunksAsSet
        let wantToReadErasures := erasures ∩ wantToRead
        -- `break`
        if wantToReadErasures.card = 0 then some (0, decoded)
        else decodeLayers wantToRead rest erasures wantToReadErasures decoded

/-- `ErasureCodeLrc::decode_chunks`. -/
def decodeChunks (n : ℕ) (layers : List Layer) (wantToRead : Finset ℕ) (chunks decoded : ChunkMap) :
    Option (ℤ × ChunkMap) :=
  let erasures := (Finset.range n).filter fun i => (chunks i).isNone
  decodeLayers wantToRead layers.reverse erasures ∅ decoded

end Ceph.Lrc
