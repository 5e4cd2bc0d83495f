import Ceph.ErasureCode.Base
import Ceph.Lib.Loop

/-!
# Stripes, shard hashes and whole-buffer encoding

`stripe_info_t`, `HashInfo` and `encode` of `osd/ECUtil.h` and `osd/ECUtil.cc`.
An erasure coded object is cut into stripes of `stripe_width` bytes; every shard
holds one chunk of `chunk_size` bytes of each stripe.

Offsets are natural numbers; where the code relies on them fitting in 64 bits,
the theorems that use it say so.
-/

namespace Ceph.Osd

open List Option Nat

/-- `stripe_info_t`.  The constructor's assertion and the sizes being positive
are part of the type. -/
structure StripeInfo where
  stripeWidth : ℕ
  chunkSize : ℕ
  chunkSize_pos : 0 < chunkSize
  stripeWidth_pos : 0 < stripeWidth
  chunkSize_dvd : chunkSize ∣ stripeWidth

namespace StripeInfo

variable (sinfo : StripeInfo)

/-- `logical_offset_is_stripe_aligned` -/
def LogicalOffsetIsStripeAligned (logical : ℕ) : Prop := logical % sinfo.stripeWidth = 0

instance (logical : ℕ) : Decidable (sinfo.LogicalOffsetIsStripeAligned logical) :=
  inferInstanceAs (Decidable (_ = _))

variable (offset : ℕ)

def logicalToPrevChunkOffset : ℕ := offset / sinfo.stripeWidth * sinfo.chunkSize

def logicalToNextChunkOffset : ℕ :=
  (offset + sinfo.stripeWidth - 1) / sinfo.stripeWidth * sinfo.chunkSize

def logicalToPrevStripeOffset : ℕ := offset - offset % sinfo.stripeWidth

def logicalToNextStripeOffset : ℕ :=
  if offset % sinfo.stripeWidth ≠ 0 then offset - offset % sinfo.stripeWidth + sinfo.stripeWidth
  else offset

def alignedLogicalOffsetToChunkOffset : Option ℕ :=
  if offset % sinfo.stripeWidth = 0 then some (offset / sinfo.stripeWidth * sinfo.chunkSize)
  else none

def alignedChunkOffsetToLogicalOffset : Option ℕ :=
  if offset % sinfo.chunkSize = 0 then some (offset / sinfo.chunkSize * sinfo.stripeWidth)
  else none

/-! ## Rounding to stripes -/

open StripeInfo renaming logicalToPrevStripeOffset → prevStripe,
  logicalToNextStripeOffset → nextStripe, LogicalOffsetIsStripeAligned → StripeAligned,
  logicalToPrevChunkOffset → prevChunk

variable {a : ℕ}

theorem aligned_iff : StripeAligned sinfo a ↔ sinfo.stripeWidth ∣ a :=
  (dvd_iff_mod_eq_zero).symm

variable {sinfo}

theorem aligned_zero (sinfo : StripeInfo) : StripeAligned sinfo 0 := zero_mod _

section

variable (ha : StripeAligned sinfo a)

include ha

theorem aligned_sub {b : ℕ} (hb : StripeAligned sinfo b) : StripeAligned sinfo (a - b) := by
  rw [aligned_iff] at *
  exact dvd_sub ha hb

theorem aligned_add_width : StripeAligned sinfo (a + sinfo.stripeWidth) := by
  rw [aligned_iff] at *
  exact dvd_add ha (dvd_refl _)

/-- Aligned offsets are a stripe apart. -/
theorem add_width_le {b : ℕ} (hb : StripeAligned sinfo b) (hlt : a < b) :
    a + sinfo.stripeWidth ≤ b := by
  rw [aligned_iff] at *
  obtain ⟨p, rfl⟩ := ha
  obtain ⟨q, rfl⟩ := hb
  have hpq : p < q := Nat.lt_of_mul_lt_mul_left hlt
  calc sinfo.stripeWidth * p + sinfo.stripeWidth = sinfo.stripeWidth * (p + 1) := by ring
    _ ≤ sinfo.stripeWidth * q := Nat.mul_le_mul_left _ hpq

end

theorem prev_aligned (sinfo : StripeInfo) (x : ℕ) : StripeAligned sinfo (prevStripe sinfo x) := by
  rw [aligned_iff]
  exact dvd_sub_mod x

theorem prev_le (sinfo : StripeInfo) (x : ℕ) : prevStripe sinfo x ≤ x := sub_le ..

theorem lt_prev_add (sinfo : StripeInfo) (x : ℕ) : x < prevStripe sinfo x + sinfo.stripeWidth := by
  rw [logicalToPrevStripeOffset]
  have := mod_lt x sinfo.stripeWidth_pos
  omega

variable {x : ℕ}

/-- The stripe an offset lies in is the only one that contains it. -/
theorem prev_eq (ha : StripeAligned sinfo a) (hle : a ≤ x)
    (hlt : x < a + sinfo.stripeWidth) : prevStripe sinfo x = a := by
  have hp := sinfo.prev_aligned x
  have h1 := sinfo.prev_le x
  have h2 := sinfo.lt_prev_add x
  rcases lt_trichotomy (prevStripe sinfo x) a with h | h | h
  · have := add_width_le hp ha h
    omega
  · exact h
  · have := add_width_le ha hp h
    omega

/-- Two offsets lie in one stripe. -/
theorem prev_eq_prev_iff {y : ℕ} : prevStripe sinfo x = prevStripe sinfo y ↔
      prevStripe sinfo y ≤ x ∧ x < prevStripe sinfo y + sinfo.stripeWidth :=
  ⟨fun h => h ▸ ⟨sinfo.prev_le x, sinfo.lt_prev_add x⟩,
    fun h => prev_eq (sinfo.prev_aligned y) h.1 h.2⟩

theorem prev_lt (h : ¬ StripeAligned sinfo x) : prevStripe sinfo x < x :=
  lt_of_le_of_ne (sinfo.prev_le x) fun heq => h (heq ▸ sinfo.prev_aligned x)

/-- An offset inside a stripe lies in one stripe with the byte before it. -/
theorem prev_pred (h : ¬ StripeAligned sinfo x) :
    prevStripe sinfo (x - 1) = prevStripe sinfo x := by
  have h1 := prev_lt h
  have h2 := sinfo.lt_prev_add x
  exact prev_eq (sinfo.prev_aligned x) (by omega) (by omega)

theorem next_eq_self (h : StripeAligned sinfo x) : nextStripe sinfo x = x :=
  if_neg (not_not.2 h)

theorem next_eq_prev_add (h : ¬ StripeAligned sinfo x) :
    nextStripe sinfo x = prevStripe sinfo x + sinfo.stripeWidth :=
  if_pos h

theorem next_aligned (sinfo : StripeInfo) (x : ℕ) : StripeAligned sinfo (nextStripe sinfo x) := by
  by_cases h : StripeAligned sinfo x
  · rwa [next_eq_self h]
  · rw [next_eq_prev_add h]
    exact aligned_add_width (sinfo.prev_aligned x)

theorem le_next (sinfo : StripeInfo) (x : ℕ) : x ≤ nextStripe sinfo x := by
  by_cases h : StripeAligned sinfo x
  · rw [next_eq_self h]
  · rw [next_eq_prev_add h]
    exact (sinfo.lt_prev_add x).le

theorem next_lt_add (sinfo : StripeInfo) (x : ℕ) : nextStripe sinfo x < x + sinfo.stripeWidth := by
  by_cases h : StripeAligned sinfo x
  · rw [next_eq_self h]
    exact Nat.lt_add_of_pos_right sinfo.stripeWidth_pos
  · rw [next_eq_prev_add h]
    have hlt := prev_lt h
    omega

section

variable (ha : StripeAligned sinfo a)

include ha

/-- `next` is the least aligned offset that is not below. -/
theorem next_le_iff : nextStripe sinfo x ≤ a ↔ x ≤ a := by
  refine ⟨(sinfo.le_next x).trans, fun h => ?_⟩
  by_contra hlt
  have h1 := add_width_le ha (sinfo.next_aligned x) (by omega)
  have h2 := sinfo.next_lt_add x
  omega

/-- `prev` is the greatest aligned offset that is not above. -/
theorem le_prev_iff : a ≤ prevStripe sinfo x ↔ a ≤ x := by
  refine ⟨fun h => h.trans (sinfo.prev_le x), fun h => ?_⟩
  by_contra hlt
  have h1 := add_width_le (sinfo.prev_aligned x) ha (by omega)
  have h2 := sinfo.lt_prev_add x
  omega

theorem prev_lt_iff : prevStripe sinfo x < a ↔ x < a := by
  rw [← not_le, ← not_le, le_prev_iff ha]

end

theorem prev_eq_self (h : StripeAligned sinfo x) : prevStripe sinfo x = x :=
  le_antisymm (sinfo.prev_le x) ((le_prev_iff h).2 le_rfl)

theorem next_mono {y : ℕ} (h : x ≤ y) : nextStripe sinfo x ≤ nextStripe sinfo y :=
  (next_le_iff (sinfo.next_aligned y)).2 (h.trans (sinfo.le_next y))

theorem aligned_max {b : ℕ} (ha : StripeAligned sinfo a)
    (hb : StripeAligned sinfo b) : StripeAligned sinfo (max a b) := by
  rcases max_choice a b with h | h
  · rwa [h]
  · rwa [h]

theorem alignedToChunk_of_aligned (h : StripeAligned sinfo a) :
    sinfo.alignedLogicalOffsetToChunkOffset a = some (prevChunk sinfo a) :=
  if_pos h

end StripeInfo

/-! ## Shard hashes -/

/-- `HashInfo`: the length of a shard and the running checksum of every shard. -/
structure HashInfo where
  totalChunkSize : ℕ
  cumulativeShardHashes : List UInt32
  /-- The size once all in-flight operations commit. -/
  projectedTotalChunkSize : ℕ
  deriving DecidableEq

/-- What `osd` uses of `ErasureCodeInterface`, and the checksum of a buffer. -/
structure ErasureCodeInterface where
  /-- `get_chunk_count()` -/
  chunkCount : ℕ
  /-- `encode(want, in, &encoded)`: the return value and `encoded` -/
  encode : Finset ℕ → Buffer → ℤ × ChunkMap
  /-- `bufferlist::crc32c` -/
  crc32c : UInt32 → Buffer → UInt32

namespace HashInfo

variable (hinfo : HashInfo)

def clear : HashInfo :=
  { hinfo with
    totalChunkSize := 0
    cumulativeShardHashes := replicate hinfo.cumulativeShardHashes.length (-1) }

def getTotalLogicalSize (sinfo : StripeInfo) : ℕ :=
  hinfo.totalChunkSize * (sinfo.stripeWidth / sinfo.chunkSize)

def getProjectedTotalLogicalSize (sinfo : StripeInfo) : ℕ :=
  hinfo.projectedTotalChunkSize * (sinfo.stripeWidth / sinfo.chunkSize)

def setProjectedTotalLogicalSize (sinfo : StripeInfo) (logicalSize : ℕ) : Option HashInfo := do
  assert (sinfo.LogicalOffsetIsStripeAligned logicalSize)
  let size ← sinfo.alignedLogicalOffsetToChunkOffset logicalSize
  some { hinfo with projectedTotalChunkSize := size }

def setTotalChunkSizeClearHash (newChunkSize : ℕ) : HashInfo :=
  { hinfo with totalChunkSize := newChunkSize, cumulativeShardHashes := [] }

def hasChunkHash : Bool := !hinfo.cumulativeShardHashes.isEmpty

def updateTo (rhs : HashInfo) : HashInfo :=
  { rhs with projectedTotalChunkSize := hinfo.projectedTotalChunkSize }

/-- The hashes after `append`: unchanged if there are none. -/
def appendHashes (ec : ErasureCodeInterface) (sizeToAppend : ℕ) (toAppend : ChunkMap) :
    Option (List UInt32) :=
  if hinfo.hasChunkHash then do
    assert (((range ec.chunkCount).filter fun i => (toAppend i).isSome).length =
      hinfo.cumulativeShardHashes.length)
    assert (∀ i < ec.chunkCount, (toAppend i).all fun bl => bl.length = sizeToAppend)
    assert (∀ i < ec.chunkCount, (toAppend i).isSome → i < hinfo.cumulativeShardHashes.length)
    some (hinfo.cumulativeShardHashes.mapIdx fun i hash =>
      match toAppend i with
      | some bl => ec.crc32c hash bl
      | none => hash)
  else some hinfo.cumulativeShardHashes

def append (ec : ErasureCodeInterface) (oldSize : ℕ) (toAppend : ChunkMap) : Option HashInfo := do
  assert (oldSize = hinfo.totalChunkSize)
  let first ← toAppend.begin ec.chunkCount
  let hashes ← hinfo.appendHashes ec first.length toAppend
  some { hinfo with
    totalChunkSize := hinfo.totalChunkSize + first.length
    cumulativeShardHashes := hashes }

/-- `count` bytes of `n`, the least significant first. -/
def littleEndian (count n : ℕ) : Buffer := (range count).map fun i => Byte.ofNat (n / 256 ^ i)

/-- `encode`, with the version header of `ENCODE_START(1, 1, bl)`. -/
def encode : Buffer :=
  let body := littleEndian 8 hinfo.totalChunkSize ++
    littleEndian 4 hinfo.cumulativeShardHashes.length ++
    hinfo.cumulativeShardHashes.flatMap fun hash => littleEndian 4 hash.toNat
  littleEndian 1 1 ++ littleEndian 1 1 ++ littleEndian 4 body.length ++ body

end HashInfo

/-- `get_hinfo_key()` -/
def getHinfoKey : String := "hinfo_key"

/-! ## Encoding a buffer of stripes -/

/-- One turn of the loop of `ECUtil::encode`: the stripe `i` of `bl` is encoded
and its chunks are appended to `out`. -/
def encodeStripe (sinfo : StripeInfo) (ec : ErasureCodeInterface) (bl : Buffer) (want : Finset ℕ)
    (out : ChunkMap) (i : ℕ) : Option ChunkMap := do
  let buf := (bl.drop (i * sinfo.stripeWidth)).take sinfo.stripeWidth
  let (r, encoded) := ec.encode want buf
  assert (r = 0)
  assert (∀ i < ec.chunkCount, (encoded i).all fun chunk => chunk.length = sinfo.chunkSize)
  some fun i =>
    match encoded i with
    | some chunk => some (out.at i ++ chunk)
    | none => out i

/-- `ECUtil::encode`. -/
def encode (sinfo : StripeInfo) (ec : ErasureCodeInterface) (bl : Buffer) (want : Finset ℕ) :
    Option (ℤ × ChunkMap) := do
  assert (bl.length % sinfo.stripeWidth = 0)
  if bl.length = 0 then some (0, fun _ => none)
  else do
    let out ← (range (bl.length / sinfo.stripeWidth)).foldlM
      (encodeStripe sinfo ec bl want) fun _ => none
    assert (∀ i < ec.chunkCount, (out i).all fun chunk =>
      sinfo.alignedChunkOffsetToLogicalOffset chunk.length = some bl.length)
    some (0, out)

/-- The plugin encodes a stripe: it returns `0` and every chunk, of the chunk size. -/
def ErasureCodeInterface.EncodesStripes (ec : ErasureCodeInterface) (sinfo : StripeInfo) : Prop :=
  ∀ buf : Buffer, buf.length = sinfo.stripeWidth →
    (ec.encode (Finset.range ec.chunkCount) buf).1 = 0 ∧
      ∀ i < ec.chunkCount, ∃ chunk, (ec.encode (Finset.range ec.chunkCount) buf).2 i = some chunk ∧
        chunk.length = sinfo.chunkSize

section Encode

variable {sinfo : StripeInfo} {ec : ErasureCodeInterface}

theorem encodeStripe_spec (hec : ec.EncodesStripes sinfo) {bl : Buffer} {out : ChunkMap} {i : ℕ}
    (hi : (i + 1) * sinfo.stripeWidth ≤ bl.length)
    (hout : ∀ j < ec.chunkCount, (out.at j).length = i * sinfo.chunkSize) :
    ∃ out', encodeStripe sinfo ec bl (Finset.range ec.chunkCount) out i = some out' ∧
      ∀ j < ec.chunkCount, ∃ chunk, out' j = some chunk ∧
        chunk.length = (i + 1) * sinfo.chunkSize := by
  have hlen : ((bl.drop (i * sinfo.stripeWidth)).take sinfo.stripeWidth).length =
      sinfo.stripeWidth := by
    rw [length_take, length_drop]
    rw [add_mul] at hi
    omega
  obtain ⟨hr, hchunks⟩ := hec _ hlen
  have hall : ∀ j < ec.chunkCount, ((ec.encode (Finset.range ec.chunkCount)
      ((bl.drop (i * sinfo.stripeWidth)).take sinfo.stripeWidth)).2 j).all
        (fun chunk => chunk.length = sinfo.chunkSize) := by
    intro j hj
    obtain ⟨chunk, hchunk, hcl⟩ := hchunks j hj
    rw [hchunk, all_some, hcl]
    exact decide_eq_true rfl
  refine ⟨_, (assert_bind hr _).trans (assert_bind hall _), fun j hj => ?_⟩
  obtain ⟨chunk, hchunk, hcl⟩ := hchunks j hj
  refine ⟨out.at j ++ chunk, by rw [hchunk], ?_⟩
  rw [length_append, hout j hj, hcl]
  ring

/-- Encoding a buffer of whole stripes gives every shard its chunks. -/
theorem encode_spec (hec : ec.EncodesStripes sinfo) {bl : Buffer}
    (hal : sinfo.LogicalOffsetIsStripeAligned bl.length) (hpos : 0 < bl.length) :
    ∃ out, encode sinfo ec bl (Finset.range ec.chunkCount) = some (0, out) ∧
      ∀ i < ec.chunkCount, ∃ chunk, out i = some chunk ∧
        chunk.length = sinfo.logicalToPrevChunkOffset bl.length := by
  have hmul : bl.length / sinfo.stripeWidth * sinfo.stripeWidth = bl.length :=
    Nat.div_mul_cancel ((sinfo.aligned_iff).1 hal)
  have hq : 0 < bl.length / sinfo.stripeWidth :=
    div_pos (le_of_dvd hpos ((sinfo.aligned_iff).1 hal)) sinfo.stripeWidth_pos
  -- after `i` stripes every shard holds `i` chunks
  obtain ⟨out, hfold, hlen, hsome⟩ := Loop.foldlM_range_invariant (b := fun _ => none)
    (fun i out => (∀ j < ec.chunkCount, (ChunkMap.at out j).length = i * sinfo.chunkSize) ∧
      (0 < i → ∀ j < ec.chunkCount, (out j).isSome))
    ⟨fun j _ => by simp [ChunkMap.at], fun h => absurd h (by omega)⟩
    (fun i out hi hinv => by
      have hle : (i + 1) * sinfo.stripeWidth ≤ bl.length := by
        rw [← hmul]
        exact mul_le_mul_right _ hi
      obtain ⟨out', hstep, hout'⟩ := encodeStripe_spec hec hle hinv.1
      refine ⟨out', hstep, fun j hj => ?_, fun _ j hj => ?_⟩
      · obtain ⟨chunk, hchunk, hcl⟩ := hout' j hj
        rw [ChunkMap.at_some hchunk, hcl]
      · obtain ⟨chunk, hchunk, -⟩ := hout' j hj
        rw [hchunk]
        rfl)
  have hout : ∀ i < ec.chunkCount, ∃ chunk, out i = some chunk ∧
      chunk.length = sinfo.logicalToPrevChunkOffset bl.length := by
    intro i hi
    obtain ⟨chunk, hchunk⟩ := isSome_iff_exists.1 (hsome hq i hi)
    refine ⟨chunk, hchunk, ?_⟩
    rw [← ChunkMap.at_some hchunk, hlen i hi, StripeInfo.logicalToPrevChunkOffset]
  refine ⟨out, ?_, hout⟩
  rw [encode, assert_bind (show bl.length % sinfo.stripeWidth = 0 from hal),
    if_neg (by omega), hfold]
  refine assert_bind (fun i hi => ?_) _
  obtain ⟨chunk, hchunk, hcl⟩ := hout i hi
  rw [hchunk, all_some, decide_eq_true_iff, hcl, StripeInfo.logicalToPrevChunkOffset,
    StripeInfo.alignedChunkOffsetToLogicalOffset, if_pos (Nat.mul_mod_left _ _),
    Nat.mul_div_cancel _ sinfo.chunkSize_pos, hmul]

/-- Appending chunks of one length to a shard set of the expected size. -/
theorem HashInfo.append_spec {hinfo : HashInfo} (hcount : 0 < ec.chunkCount)
    (hhash : hinfo.cumulativeShardHashes = [] ∨ hinfo.cumulativeShardHashes.length = ec.chunkCount)
    {toAppend : ChunkMap} {len : ℕ}
    (hlen : ∀ i < ec.chunkCount, ∃ chunk, toAppend i = some chunk ∧ chunk.length = len) :
    ∃ hashes, hinfo.append ec hinfo.totalChunkSize toAppend =
      some ⟨hinfo.totalChunkSize + len, hashes, hinfo.projectedTotalChunkSize⟩ := by
  have hsome : ∀ i < ec.chunkCount, (toAppend i).isSome := by
    intro i hi
    obtain ⟨chunk, hchunk, -⟩ := hlen i hi
    rw [hchunk]
    rfl
  obtain ⟨first, hfirst⟩ := isSome_iff_exists.1 (ChunkMap.begin_isSome hcount (hsome 0 hcount))
  obtain ⟨i, hi, hchunk⟩ := ChunkMap.exists_of_begin_eq hfirst
  obtain ⟨chunk, hchunk', hcl⟩ := hlen i hi
  have hfl : first.length = len := by
    rw [hchunk', some_inj] at hchunk
    rw [← hchunk, hcl]
  have hhashes : ∃ hashes, hinfo.appendHashes ec first.length toAppend = some hashes := by
    rw [HashInfo.appendHashes]
    by_cases hh : hinfo.hasChunkHash = true
    · rcases hhash with hnil | hsize
      · rw [HashInfo.hasChunkHash, hnil] at hh
        cases hh
      have hcnt : ((range ec.chunkCount).filter fun i => (toAppend i).isSome).length =
          hinfo.cumulativeShardHashes.length := by
        rw [filter_eq_self.2 fun j hj => hsome j (mem_range.1 hj), length_range, hsize]
      have hsame : ∀ j < ec.chunkCount, (toAppend j).all fun bl => bl.length = first.length := by
        intro j hj
        obtain ⟨chunk, hchunk, hcl⟩ := hlen j hj
        rw [hchunk, all_some, decide_eq_true_iff, hcl, hfl]
      rw [if_pos hh]
      exact ⟨_, (assert_bind hcnt _).trans ((assert_bind hsame _).trans
        (assert_bind (fun j hj _ => by rw [hsize]; exact hj) _))⟩
    · exact ⟨_, if_neg hh⟩
  obtain ⟨hashes, hhashes⟩ := hhashes
  refine ⟨hashes, ?_⟩
  rw [HashInfo.append, assert_bind rfl, hfirst]
  simp only [bind_eq_bind, bind_some]
  rw [hhashes, bind_some, hfl]

end Encode

end Ceph.Osd
