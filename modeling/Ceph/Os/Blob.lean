import Ceph.Os.Denc

/-!
# The metadata of a blob

`bluestore_blob_t` of `os/bluestore/bluestore_types.h`: where the data of a blob is on the device,
its flags and what they make it carry.

* `reads_blob` — a blob is read back from its encoding.
-/

namespace Ceph.Os

/-! ## Blobs -/

/-- `bluestore_pextent_t`: `uint64_t` offset and `uint32_t` length -/
structure PExtent where
  offset : ℕ
  length : ℕ
  deriving DecidableEq

/-- `Checksummer::CSUM_NONE` -/
def csumNone : ℕ := 1

/-- `bluestore_blob_t` -/
structure BlobT where
  extents : List PExtent := []
  logicalLength : ℕ := 0
  compressedLength : ℕ := 0
  flags : ℕ := 0
  unused : ℕ := 0
  csumType : ℕ := csumNone
  csumChunkOrder : ℕ := 0
  csumData : List UInt8 := []
  deriving DecidableEq

namespace BlobT

variable (b : BlobT)

/-- `is_compressed`, `FLAG_COMPRESSED` is 2. -/
def isCompressed : Bool := b.flags.testBit 1

/-- `has_csum`, `FLAG_CSUM` is 4. -/
def hasCsum : Bool := b.flags.testBit 2

/-- `has_unused`, `FLAG_HAS_UNUSED` is 8. -/
def hasUnused : Bool := b.flags.testBit 3

/-- `is_shared`, `FLAG_SHARED` is 16. -/
def isShared : Bool := b.flags.testBit 4

/-- `get_ondisk_length` -/
def ondiskLength : ℕ := b.extents.foldl (fun len p => (len + p.length) % 2 ^ 32) 0

/-- `get_csum_chunk_size` -/
def csumChunkSize : ℕ := 2 ^ b.csumChunkOrder

/-- `get_release_size` -/
def releaseSize (minAllocSize : ℕ) : ℕ :=
  if b.isCompressed then b.logicalLength
  else if !b.hasCsum || b.csumChunkSize < minAllocSize then minAllocSize
  else b.csumChunkSize

/-- What all functions of the class keep: the values fit in their words, and what a flag
stands for has its initial value without it. -/
structure WF (b : BlobT) : Prop where
  pextent : ∀ p ∈ b.extents, p.offset < 2 ^ 64 ∧ p.length < 2 ^ 32
  extents : b.extents.length < 2 ^ 32
  logicalLength : b.logicalLength < 2 ^ 32
  compressedLength : b.compressedLength < 2 ^ 32
  flags : b.flags < 2 ^ 32
  unused : b.unused < 2 ^ 16
  csumType : b.csumType < 2 ^ 8
  csumChunkOrder : b.csumChunkOrder < 32
  csumData : b.csumData.length < 2 ^ 31
  plain : b.isCompressed = false → b.logicalLength = b.ondiskLength ∧ b.compressedLength = 0
  noCsum : b.hasCsum = false → b.csumType = csumNone ∧ b.csumChunkOrder = 0 ∧ b.csumData = []
  noUnused : b.hasUnused = false → b.unused = 0

end BlobT

/-! ## Encoding -/

/-- `denc` of a `bluestore_pextent_t` -/
def encodePExtent (p : PExtent) : List UInt8 := dencLba p.offset ++ dencVarintLowz p.length

def decodePExtent : Decoder PExtent := do
  let offset ← readLba
  let length ← readVarintLowz 32
  pure ⟨offset, length⟩

/-- `denc` of a `PExtentVector` -/
def encodePExtents (v : List PExtent) : List UInt8 := varint v.length ++ v.flatMap encodePExtent

def decodePExtents : Decoder (List PExtent) := do
  let num ← readVarint 32
  times decodePExtent num

/-- `bluestore_blob_t::encode` -/
def BlobT.encode (b : BlobT) : List UInt8 :=
  encodePExtents b.extents ++ (varint b.flags ++
    ((if b.isCompressed then dencVarintLowz b.logicalLength ++ dencVarintLowz b.compressedLength
      else []) ++ ((if b.hasCsum then leBytes 1 b.csumType ++ (leBytes 1 b.csumChunkOrder ++
        (varint b.csumData.length ++ b.csumData)) else []) ++
    if b.hasUnused then leBytes 2 b.unused else [])))

/-- The lengths; those of a blob that is not compressed follow from the extents. -/
def decodeLengths (b : BlobT) : Decoder BlobT :=
  if b.isCompressed then do
    let logicalLength ← readVarintLowz 32
    let compressedLength ← readVarintLowz 32
    pure { b with logicalLength, compressedLength }
  else pure { b with logicalLength := b.ondiskLength }

def decodeCsum (b : BlobT) : Decoder BlobT :=
  if b.hasCsum then do
    let csumType ← leNat 1
    let csumChunkOrder ← leNat 1
    let len ← readVarint 32
    let csumData ← nextBytes len
    pure { b with csumType, csumChunkOrder, csumData }
  else pure b

def decodeUnused (b : BlobT) : Decoder BlobT :=
  if b.hasUnused then do
    let unused ← leNat 2
    pure { b with unused }
  else pure b

/-- `bluestore_blob_t::decode`, into a new blob -/
def decodeBlob : Decoder BlobT := do
  let extents ← decodePExtents
  let flags ← readVarint 32
  let b ← decodeLengths { extents, flags }
  let b ← decodeCsum b
  decodeUnused b

/-! ## Reading it back -/

theorem reads_pextent {p : PExtent} (hoffset : p.offset < 2 ^ 64) (hlength : p.length < 2 ^ 32) :
    Reads decodePExtent (encodePExtent p) p :=
  (reads_lba hoffset).bind ((reads_varintLowz (by omega) hlength).map (PExtent.mk p.offset))

theorem reads_pextents {v : List PExtent} (hv : ∀ p ∈ v, p.offset < 2 ^ 64 ∧ p.length < 2 ^ 32)
    (hlen : v.length < 2 ^ 32) : Reads decodePExtents (encodePExtents v) v :=
  (reads_varint hlen).bind
  (Reads.times encodePExtent v fun p hp => reads_pextent (hv p hp).1 (hv p hp).2)

section

variable {b : BlobT}

theorem reads_lengths (hb : b.WF) : Reads (decodeLengths { extents := b.extents, flags := b.flags })
      (if b.isCompressed then dencVarintLowz b.logicalLength ++ dencVarintLowz b.compressedLength
        else [])
      { extents := b.extents, flags := b.flags, logicalLength := b.logicalLength,
        compressedLength := b.compressedLength } := by
  have hlogical := hb.logicalLength
  have hcompressed := hb.compressedLength
  have hflag : BlobT.isCompressed { extents := b.extents, flags := b.flags } = b.isCompressed := rfl
  rw [decodeLengths, hflag]
  cases hc : b.isCompressed with
  | true =>
    exact (reads_varintLowz (by omega) hlogical).bind
      ((reads_varintLowz (by omega) hcompressed).map _)
  | false =>
    obtain ⟨hlen, hzero⟩ := hb.plain hc
    rw [hlen, hzero]
    exact Reads.pure _

theorem reads_csum (hb : b.WF) : Reads (decodeCsum
        { extents := b.extents, flags := b.flags, logicalLength := b.logicalLength,
          compressedLength := b.compressedLength })
      (if b.hasCsum then leBytes 1 b.csumType ++ (leBytes 1 b.csumChunkOrder ++
        (varint b.csumData.length ++ b.csumData)) else [])
      { b with unused := 0 } := by
  have hlen := hb.csumData
  have hflag : BlobT.hasCsum
      { extents := b.extents, flags := b.flags, logicalLength := b.logicalLength,
        compressedLength := b.compressedLength } = b.hasCsum := rfl
  rw [decodeCsum, hflag]
  cases hc : b.hasCsum with
  | true =>
    have horder := hb.csumChunkOrder
    exact (reads_leNat 1 hb.csumType).bind ((reads_leNat 1 (by omega)).bind
      ((reads_varint (by omega)).bind ((reads_nextBytes b.csumData).map _)))
  | false =>
    obtain ⟨htype, horder, hdata⟩ := hb.noCsum hc
    rw [htype, horder, hdata]
    exact Reads.pure _

theorem reads_unused (hb : b.WF) : Reads (decodeUnused { b with unused := 0 })
    (if b.hasUnused then leBytes 2 b.unused else []) b := by
  have hflag : BlobT.hasUnused { b with unused := 0 } = b.hasUnused := rfl
  rw [decodeUnused, hflag]
  cases hu : b.hasUnused with
  | true => exact (reads_leNat 2 hb.unused).map fun unused => { b with unused }
  | false =>
    have hb' : ({ b with unused := 0 } : BlobT) = b := by rw [← hb.noUnused hu]
    rw [hb']
    exact Reads.pure b

/-- **A blob survives its encoding.** -/
theorem reads_blob (hb : b.WF) : Reads decodeBlob b.encode b :=
  (reads_pextents hb.pextent hb.extents).bind ((reads_varint hb.flags).bind
    ((reads_lengths hb).bind ((reads_csum hb).bind (reads_unused hb))))

end

end Ceph.Os
