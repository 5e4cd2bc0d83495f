import Ceph.Os.ExtentMap

/-!
# The encoding of a shard of the extent map

`ExtentMap::encode_some` and `decode_some` of `os/bluestore/BlueStore.cc`.  A blob is written with
the first extent that uses it; later ones name it by the number of that extent, which the
encoder keeps in an `int16_t` of the blob.

* `step_reads` — what is written for one extent is read back.
* `restored_iff` — a shard is read back exactly if no blob that is used again was first used
  behind the numbers of an `int16_t`, and the units of the blobs can be counted in 32 bits.
-/

namespace Ceph.Os

open List Option

/-! ## Encoding -/

/-- A value as `int16_t`. -/
def int16 (n : ℤ) : ℤ := Int.bmod n (2 ^ 16)

/-- The extents that `encode_some` visits. -/
def extentRange {β : Type} (extents : List (Extent β)) (offset length : ℕ) : List (Extent β) :=
  (extents.dropWhile (·.logicalOffset < offset)).takeWhile
    (·.logicalOffset < (offset + length) % 2 ^ 32)

/-- The four flags below the number of a blob: `BLOBID_FLAG_CONTIGUOUS`, `ZEROOFFSET`,
`SAMELENGTH` and `SPANNING`. -/
structure BlobIdFlags where
  contiguous : Bool
  zeroOffset : Bool
  sameLength : Bool
  spanning : Bool

/-- `blobid`: the flags are below the number. -/
def blobId (id : ℕ) (f : BlobIdFlags) : ℕ :=
  id * 16 + (f.contiguous.toNat + 2 * f.zeroOffset.toNat + 4 * f.sameLength.toNat +
    8 * f.spanning.toNat)

section Encode

variable {β : Type} [DecidableEq β]

/-- The variables of the loop of `encode_some`, and `last_encoded_id` of the blobs. -/
structure EncodeState (β : Type) where
  n : ℕ
  pos : ℕ
  prevLen : ℕ
  lastEncodedId : β → ℤ

/-- `Blob::encode`, without references -/
def Blob.encode (b : Blob) : List UInt8 :=
  b.blob.encode ++ if b.blob.isShared then leBytes 8 b.sbid else []

variable (heap : β → Blob) (st : EncodeState β)

/-- The number that is written for the blob of an extent, and whether the blob is written. -/
def encodedId (b : β) : ℕ × Bool :=
  if (heap b).isSpanning then ((heap b).id.toNat, false)
  else if st.lastEncodedId b < 0 then (0, true)
  else ((st.lastEncodedId b).toNat, false)

variable (p : Extent β)

/-- The flags that are written for an extent. -/
def encodedFlags : BlobIdFlags where
  contiguous := p.logicalOffset = st.pos
  zeroOffset := p.blobOffset = 0
  sameLength := p.length = st.prevLen
  spanning := (heap p.blob).isSpanning

/-- What is written for an extent before its blob. -/
def encodeHeader (id : ℕ) (f : BlobIdFlags) : List UInt8 :=
  varint (blobId id f) ++
    ((if f.contiguous then [] else dencVarintLowz (p.logicalOffset - st.pos)) ++
    ((if f.zeroOffset then [] else dencVarintLowz p.blobOffset) ++
    if f.sameLength then [] else dencVarintLowz p.length))

/-- What is written for an extent. -/
def encodeExtent : List UInt8 :=
  let (id, includeBlob) := encodedId heap st p.blob
  encodeHeader st p id (encodedFlags heap st p) ++ if includeBlob then (heap p.blob).encode else []

/-- The state after an extent. -/
def EncodeState.next : EncodeState β where
  n := st.n + 1
  pos := p.logicalEnd
  prevLen := p.length
  lastEncodedId :=
    if (encodedId heap st p.blob).2 then Function.update st.lastEncodedId p.blob (int16 (st.n + 1))
    else st.lastEncodedId

/-- The loop of `encode_some` -/
def encodeLoop (heap : β → Blob) : EncodeState β → List (Extent β) → List UInt8
  | _, [] => []
  | st, p :: rest => encodeExtent heap st p ++ encodeLoop heap (st.next heap p) rest

/-- `encode_some`: whether the map must be resharded, otherwise what is written. -/
def encodeSome (extents : List (Extent β)) (offset length : ℕ) : Option (List UInt8) :=
  let range := extentRange extents offset length
  if range.any fun p => !(heap p.blob).isSpanning && p.blobEscapesRange heap offset length then none
  else some (leBytes 1 2 ++ (varint range.length ++
    encodeLoop heap { n := 0, pos := 0, prevLen := 0, lastEncodedId := fun _ => -1 } range))

end Encode

/-! ## Decoding -/

section Decode

variable {β : Type}

/-- The blob of a decoded extent: one of the spanning blobs, or the one that came with the
extent of the given number. -/
inductive DecodedRef (β : Type) where
  | spanning (b : β)
  | new (n : ℕ)
  deriving DecidableEq

/-- The variables of the loop of `decode_some`, and the extents that it has inserted. -/
structure DecodeState (β : Type) where
  n : ℕ
  pos : ℕ
  prevLen : ℕ
  blobs : List (Option Blob)
  extents : List (Extent (DecodedRef β))

/-- `Blob::decode`, without references -/
def decodeBlobObject : Decoder Blob := do
  let blob ← decodeBlob
  if blob.isShared then do
    let sbid ← leNat 8
    pure { blob, sbid }
  else pure { blob }

/-- What is read for an extent before its blob: `blobid`, and the extent's offset, blob offset
and length. -/
def decodeHeader (st : DecodeState β) : Decoder (ℕ × ℕ × ℕ × ℕ) := do
  let blobid ← readVarint 64
  let gap ← (if blobid.testBit 0 then pure 0 else readVarintLowz 64)
  let blobOffset ← (if blobid.testBit 1 then pure 0 else readVarintLowz 32)
  let prevLen ← (if blobid.testBit 2 then pure st.prevLen else readVarintLowz 64)
  pure (blobid, (st.pos + gap) % 2 ^ 64, blobOffset, prevLen)

/-- The state after an extent is inserted. -/
def DecodeState.insert (st : DecodeState β) (pos blobOffset prevLen : ℕ) (ref : DecodedRef β)
    (blobs : List (Option Blob)) : DecodeState β where
  n := st.n + 1
  pos := (pos + prevLen) % 2 ^ 64
  prevLen := prevLen
  blobs := blobs
  extents := st.extents ++ [⟨pos % 2 ^ 32, blobOffset, prevLen % 2 ^ 32, ref⟩]

variable (minAllocSize : ℕ)

/-- `get_ref` of a decoded blob, which is kept in `blobs`. -/
def refDecoded (blobs : List (Option Blob)) (i : ℕ) (b : Blob) (blobOffset length : ℕ) :
    Option (List (Option Blob)) := do
  assert (i < blobs.length)
  let b ← b.getRef minAllocSize blobOffset length
  some (blobs.set i (some b))

variable (spanningBlobMap : ℕ → Option β)

/-- The blob of an extent after what was read before it. -/
def decodeRef (st : DecodeState β) (blobid pos blobOffset prevLen : ℕ) : Decoder (DecodeState β) :=
  let id := blobid / 16
  if blobid.testBit 3 then do
    let b ← StateT.lift (spanningBlobMap id)
    pure (st.insert pos blobOffset prevLen (.spanning b) st.blobs)
  else if id ≠ 0 then do
    let b ← StateT.lift (st.blobs[id - 1]?.join)
    let blobs ← StateT.lift
      (refDecoded minAllocSize st.blobs (id - 1) b blobOffset (prevLen % 2 ^ 32))
    pure (st.insert pos blobOffset prevLen (.new (id - 1)) blobs)
  else do
    let b ← decodeBlobObject
    let blobs ← StateT.lift (refDecoded minAllocSize st.blobs st.n b blobOffset (prevLen % 2 ^ 32))
    pure (st.insert pos blobOffset prevLen (.new st.n) blobs)

/-- The body of the loop of `decode_some` -/
def decodeExtent (st : DecodeState β) : Decoder (DecodeState β) := do
  let (blobid, pos, blobOffset, prevLen) ← decodeHeader st
  decodeRef minAllocSize spanningBlobMap st blobid pos blobOffset prevLen

/-- The loop of `decode_some`, until all is read -/
def decodeLoop (minAllocSize : ℕ) (spanningBlobMap : ℕ → Option β) :
    ℕ → DecodeState β → List UInt8 → Option (DecodeState β)
  | 0, _, _ => none
  | fuel + 1, st, bytes =>
    if bytes = [] then some st
    else do
      let (st, rest) ← (decodeExtent minAllocSize spanningBlobMap st).run bytes
      decodeLoop minAllocSize spanningBlobMap fuel st rest

/-- `decode_some` -/
def decodeSome (bl : List UInt8) : Option (DecodeState β) := do
  let (structV, rest) ← (leNat 1).run bl
  assert (structV = 1 ∨ structV = 2)
  let (num, rest) ← (readVarint 32).run rest
  let st ← decodeLoop minAllocSize spanningBlobMap (rest.length + 1)
    { n := 0, pos := 0, prevLen := 0, blobs := replicate num none, extents := [] } rest
  assert (st.n = num)
  some st

end Decode

/-! ## Headers and blobs -/

theorem blobId_div (id : ℕ) (f : BlobIdFlags) : blobId id f / 16 = id := by
  obtain ⟨c, z, s, p⟩ := f
  cases c <;> cases z <;> cases s <;> cases p <;> simp [blobId] <;> omega

theorem blobId_testBit (id : ℕ) (f : BlobIdFlags) : (blobId id f).testBit 0 = f.contiguous ∧
    (blobId id f).testBit 1 = f.zeroOffset ∧ (blobId id f).testBit 2 = f.sameLength ∧
    (blobId id f).testBit 3 = f.spanning := by
  obtain ⟨c, z, s, p⟩ := f
  simp only [blobId, Nat.testBit_eq_decide_div_mod_eq]
  cases c <;> cases z <;> cases s <;> cases p <;> simp <;> omega

theorem blobId_lt {id : ℕ} {f : BlobIdFlags} (h : id < 2 ^ 32) : blobId id f < 2 ^ 64 := by
  obtain ⟨c, z, s, p⟩ := f
  have hle : ∀ x : Bool, x.toNat ≤ 1 := Bool.toNat_le
  have := hle c
  have := hle z
  have := hle s
  have := hle p
  simp only [blobId]
  omega

section Header

variable {β : Type} {heap : β → Blob} {es : EncodeState β} {ds : DecodeState β} {p : Extent β}
  {id : ℕ}

/-- A value that is written unless it has its default. -/
theorem reads_optional {α : Type} {c : Bool} {d : Decoder α} {bytes : List UInt8} {x : α}
    (default : α) (hd : Reads d bytes x) (h : c = true → x = default) :
    Reads (if c then pure default else d) (if c then [] else bytes) x := by
  cases c with
  | true =>
    rw [h rfl]
    exact Reads.pure default
  | false => exact hd

theorem reads_header (hpos : ds.pos = es.pos) (hprev : ds.prevLen = es.prevLen)
    (hle : es.pos ≤ p.logicalOffset) (hlogical : p.logicalOffset < 2 ^ 32)
    (hoffset : p.blobOffset < 2 ^ 32) (hlength : p.length < 2 ^ 32) (hid : id < 2 ^ 32) :
    Reads (decodeHeader ds) (encodeHeader es p id (encodedFlags heap es p))
      (blobId id (encodedFlags heap es p), p.logicalOffset, p.blobOffset, p.length) := by
  obtain ⟨hcontiguous, hzero, hsame, -⟩ := blobId_testBit id (encodedFlags heap es p)
  have hgap : (ds.pos + (p.logicalOffset - es.pos)) % 2 ^ 64 = p.logicalOffset := by
    rw [hpos, Nat.add_sub_cancel' hle]
    exact Nat.mod_eq_of_lt (by omega)
  have hreadGap : Reads (if (encodedFlags heap es p).contiguous then pure 0 else readVarintLowz 64)
      (if (encodedFlags heap es p).contiguous then [] else
        dencVarintLowz (p.logicalOffset - es.pos)) (p.logicalOffset - es.pos) :=
    reads_optional 0 (reads_varintLowz (by omega) (by omega)) fun h => by
      rw [of_decide_eq_true h, Nat.sub_self]
  have hreadOffset : Reads
      (if (encodedFlags heap es p).zeroOffset then pure 0 else readVarintLowz 32)
      (if (encodedFlags heap es p).zeroOffset then [] else dencVarintLowz p.blobOffset)
      p.blobOffset :=
    reads_optional 0 (reads_varintLowz (by omega) hoffset) fun h => of_decide_eq_true h
  have hreadLength : Reads
      (if (encodedFlags heap es p).sameLength then pure ds.prevLen else readVarintLowz 64)
      (if (encodedFlags heap es p).sameLength then [] else dencVarintLowz p.length) p.length :=
    reads_optional ds.prevLen (reads_varintLowz (by omega) (by omega)) fun h => by
      rw [of_decide_eq_true h, hprev]
  refine (reads_varint (blobId_lt hid)).bind ?_
  rw [hcontiguous, hzero, hsame]
  refine hreadGap.bind (hreadOffset.bind ?_)
  rw [hgap]
  exact hreadLength.map _

theorem reads_blobObject {b : Blob} (hb : b.blob.WF) (hsbid : b.sbid < 2 ^ 64)
    (hshared : b.blob.isShared = false → b.sbid = 0) :
    Reads decodeBlobObject b.encode { blob := b.blob, sbid := b.sbid } := by
  refine (reads_blob hb).bind ?_
  cases hs : b.blob.isShared with
  | true => exact (reads_leNat 8 hsbid).map fun sbid => ({ blob := b.blob, sbid } : Blob)
  | false =>
    rw [hshared hs]
    exact Reads.pure _

theorem reads_lift {α : Type} {o : Option α} {x : α} (h : o = some x) :
    Reads (StateT.lift o) [] x := by
  subst h
  intro rest
  rfl

end Header

theorem encodeExtent_ne_nil {β : Type} (heap : β → Blob) (es : EncodeState β) (p : Extent β) :
    encodeExtent heap es p ≠ [] := by
  simp [encodeExtent, encodeHeader, varint_ne_nil]

/-! ## Shards -/

/-- A shard range of an extent map: the extents are disjoint, of positive length and within 32
bits, and the blobs of the range that are not spanning lie inside it and are used only there. -/
structure Shard (β : Type) where
  heap : β → Blob
  spanningBlobMap : ℕ → Option β
  minAllocOrder : ℕ
  extents : List (Extent β)
  offset : ℕ
  length : ℕ
  order_lt : minAllocOrder < 32
  sorted : extents.Pairwise fun a b => a.logicalOffset + a.length ≤ b.logicalOffset
  positive : ∀ e ∈ extents, 0 < e.length
  word : ∀ e ∈ extents, e.logicalOffset + e.length < 2 ^ 32 ∧ e.blobOffset < 2 ^ 32
  range_word : offset + length < 2 ^ 32
  blob_wf : ∀ e ∈ extents, (heap e.blob).blob.WF
  sbid : ∀ e ∈ extents, (heap e.blob).sbid < 2 ^ 64 ∧
    ((heap e.blob).blob.isShared = false → (heap e.blob).sbid = 0)
  spanning : ∀ e ∈ extents, (heap e.blob).isSpanning → (heap e.blob).id < 2 ^ 15 ∧
    spanningBlobMap (heap e.blob).id.toNat = some e.blob
  inside : ∀ e ∈ extents, offset ≤ e.logicalOffset → e.logicalOffset < offset + length →
    (heap e.blob).isSpanning = false → e.blobOffset + e.length ≤ (heap e.blob).blob.logicalLength ∧
      offset + e.blobOffset ≤ e.logicalOffset ∧
      e.logicalOffset + (heap e.blob).blob.logicalLength ≤ offset + length + e.blobOffset
  only : ∀ e ∈ extents, offset ≤ e.logicalOffset → e.logicalOffset < offset + length →
    (heap e.blob).isSpanning = false → ∀ e' ∈ extents, e'.blob = e.blob →
      offset ≤ e'.logicalOffset ∧ e'.logicalOffset < offset + length

variable {n : ℕ}

namespace Shard

variable {β : Type} (s : Shard β)

/-- The extents of the range. -/
def range : List (Extent β) :=
  s.extents.filter fun e => s.offset ≤ e.logicalOffset ∧ e.logicalOffset < s.offset + s.length

/-- `min_alloc_size` -/
def minAllocSize : ℕ := 2 ^ s.minAllocOrder

/-- The blob of an extent is not spanning. -/
def Local (b : β) : Prop := (s.heap b).isSpanning = false

theorem mem_range {s : Shard β} {e : Extent β} : e ∈ s.range ↔
    e ∈ s.extents ∧ s.offset ≤ e.logicalOffset ∧ e.logicalOffset < s.offset + s.length := by
  simp [range]

theorem range_sorted : s.range.Pairwise fun a b => a.logicalOffset + a.length ≤ b.logicalOffset :=
  s.sorted.filter _

/-- The loop visits the extents of the range. -/
theorem extentRange_eq : extentRange s.extents s.offset s.length = s.range := by
  have hclosed : ∀ k, SortedList.DownClosed (fun e : Extent β => e.logicalOffset < k) s.extents :=
    fun k => s.sorted.imp fun {a b} hab hb => by
      simp only [decide_eq_true_eq] at hb ⊢
      omega
  rw [extentRange, Nat.mod_eq_of_lt s.range_word, SortedList.dropWhile_eq_filter (hclosed _),
    SortedList.takeWhile_eq_filter ((hclosed _).filter _), List.filter_filter, range]
  refine List.filter_congr fun e _ => ?_
  grind

/-- The extents of a sorted list are not longer than what is below their end. -/
theorem sum_length_le {l : List (Extent β)} (bound : ℕ)
    (hl : l.Pairwise fun a b => a.logicalOffset + a.length ≤ b.logicalOffset)
    (hbound : ∀ e ∈ l, e.logicalOffset + e.length ≤ bound) (start : ℕ)
    (hstart : ∀ e ∈ l, start ≤ e.logicalOffset) (hle : start ≤ bound) :
    start + (l.map (·.length)).sum ≤ bound := by
  induction l generalizing start with
  | nil => simpa using hle
  | cons e l ih =>
    obtain ⟨he, htail⟩ := pairwise_cons.1 hl
    have hrest := ih htail (fun e' he' => hbound e' (mem_cons_of_mem _ he'))
      (e.logicalOffset + e.length) he (hbound e mem_cons_self)
    have hfirst := hstart e mem_cons_self
    rw [map_cons, sum_cons]
    omega

theorem length_mod {p : Extent β} (hp : p ∈ s.extents) : p.length % 2 ^ 32 = p.length := by
  have hword := (s.word p hp).1
  exact Nat.mod_eq_of_lt (by omega)

/-- The lengths of a part of the range are a word. -/
theorem sum_length_lt {l : List (Extent β)} (hl : l.Sublist s.range) :
    (l.map (·.length)).sum < 2 ^ 32 := by
  have hle := sum_length_le (2 ^ 32 - 1) (s.range_sorted.sublist hl)
    (fun e he => Nat.le_sub_one_of_lt (s.word e (mem_range.1 (hl.subset he)).1).1) 0
    (fun e _ => Nat.zero_le _) (Nat.zero_le _)
  omega

variable [DecidableEq β]

theorem refTotal_le (l : List (Extent β)) (b : β) : refTotal l b ≤ (l.map (·.length)).sum := by
  refine sum_le_sum fun e _ => ?_
  split_ifs
  · exact le_rfl
  · exact Nat.zero_le _

/-- The number of the first extent of the range that uses a blob. -/
def firstUse (b : β) : ℕ := (s.range.map (·.blob)).idxOf b

/-- The extent that is decoded for an extent of the range. -/
def decoded (p : Extent β) : Extent (DecodedRef β) where
  logicalOffset := p.logicalOffset
  blobOffset := p.blobOffset
  length := p.length
  blob := if (s.heap p.blob).isSpanning then .spanning p.blob else .new (s.firstUse p.blob)

theorem decoded_of_spanning {s : Shard β} {p : Extent β} (h : (s.heap p.blob).isSpanning = true) :
    (s.decoded p).blob = .spanning p.blob := if_pos h

theorem decoded_of_local {s : Shard β} {p : Extent β} (h : s.Local p.blob) :
    (s.decoded p).blob = .new (s.firstUse p.blob) := if_neg (ne_true_of_eq_false h)

/-- The blob that is decoded, with its tracker. -/
def decodedBlob (b : β) (used : UseTracker) : Blob where
  blob := (s.heap b).blob
  sbid := (s.heap b).sbid
  usedInBlob := used

/-- The states of encoder and decoder after the first extents of the range. -/
structure InStep (s : Shard β) (done : List (Extent β)) (es : EncodeState β)
    (ds : DecodeState β) : Prop where
  encoded : es.n = done.length
  decodedN : ds.n = done.length
  pos : ds.pos = es.pos
  prevLen : ds.prevLen = es.prevLen
  before : ∀ p rest, s.range = done ++ p :: rest → es.pos ≤ p.logicalOffset
  ids : ∀ b, s.Local b → es.lastEncodedId b =
    if b ∈ done.map (·.blob) then int16 (s.firstUse b + 1) else -1
  size : ds.blobs.length = s.range.length
  extents : ds.extents = done.map s.decoded
  blobs : ∀ p ∈ done, s.Local p.blob → ∃ used,
    ds.blobs[s.firstUse p.blob]? = some (some (s.decodedBlob p.blob used)) ∧
    Counted s.minAllocSize done p.blob (s.decodedBlob p.blob used)

section Step

variable {s : Shard β} {done rest : List (Extent β)} {p : Extent β} {es : EncodeState β}
  {ds : DecodeState β}

theorem firstUse_lt (h : s.range = done ++ p :: rest) {b : β} (hb : b ∈ done.map (·.blob)) :
    s.firstUse b < done.length := by
  rw [firstUse, h, map_append, idxOf_append_of_mem hb]
  simpa using idxOf_lt_length_of_mem hb

theorem firstUse_eq (h : s.range = done ++ p :: rest) (hb : p.blob ∉ done.map (·.blob)) :
    s.firstUse p.blob = done.length := by
  rw [firstUse, h, map_append, idxOf_append_of_notMem hb]
  simp

/-- Two blobs that are used have different first uses. -/
theorem firstUse_inj {b b' : β} (hb : b ∈ s.range.map (·.blob)) :
    s.firstUse b = s.firstUse b' ↔ b = b' := idxOf_inj hb

theorem int16_eq (h : n < 2 ^ 15) : int16 n = n := by
  rw [int16, Int.bmod_def]
  split_ifs <;> omega

section

variable (h : s.InStep done es ds)

include h

/-- The number that is written for the blob of the next extent. -/
theorem encodedId_eq (hp : s.Local p.blob)
    (hfit : p.blob ∈ done.map (·.blob) → s.firstUse p.blob + 1 < 2 ^ 15) :
    encodedId s.heap es p.blob =
      if p.blob ∈ done.map (·.blob) then (s.firstUse p.blob + 1, false) else (0, true) := by
  rw [encodedId, if_neg (ne_true_of_eq_false hp), h.ids _ hp]
  by_cases hin : p.blob ∈ done.map (·.blob)
  · rw [if_pos hin, if_pos hin, ← Nat.cast_succ, int16_eq (hfit hin), if_neg (by omega),
      Int.toNat_natCast]
  · rw [if_neg hin, if_neg hin, if_pos (by decide)]

section

variable (hrange : s.range = done ++ p :: rest)
  (hfit : s.Local p.blob → p.blob ∈ done.map (·.blob) → s.firstUse p.blob + 1 < 2 ^ 15)

include hrange hfit

/-- The numbers that blobs have after the next extent. -/
theorem ids_next {b : β} (hb : s.Local b) : (es.next s.heap p).lastEncodedId b =
      if b ∈ (done ++ [p]).map (·.blob) then int16 (s.firstUse b + 1) else -1 := by
  have hmem : b ∈ (done ++ [p]).map (·.blob) ↔ b ∈ done.map (·.blob) ∨ b = p.blob := by simp
  have hold := h.ids b hb
  simp only [EncodeState.next, hmem]
  cases hspan : (s.heap p.blob).isSpanning with
  | true =>
    have hne : b ≠ p.blob := by
      rintro rfl
      exact Bool.noConfusion (hb.symm.trans hspan)
    simp [encodedId, hspan, hold, hne]
  | false =>
    rw [encodedId_eq h hspan (hfit hspan)]
    by_cases hin : p.blob ∈ done.map (·.blob)
    · have hb' : b = p.blob → b ∈ done.map (·.blob) := fun heq => heq ▸ hin
      simp only [if_pos hin, or_iff_left_of_imp hb']
      rw [if_neg nofun, hold]
    · rw [if_neg hin, if_pos rfl, h.encoded, ← firstUse_eq hrange hin]
      by_cases hbp : b = p.blob
      · simp [hbp]
      · simp [hbp, hold]

/-- The states stay in step if the right reference is inserted and the blobs are counted. -/
theorem InStep.next {blobs : List (Option Blob)} (hsize : blobs.length = ds.blobs.length)
    (hblobs : ∀ q ∈ done ++ [p], s.Local q.blob → ∃ used,
      blobs[s.firstUse q.blob]? = some (some (s.decodedBlob q.blob used)) ∧
        Counted s.minAllocSize (done ++ [p]) q.blob (s.decodedBlob q.blob used)) :
    s.InStep (done ++ [p]) (es.next s.heap p)
      (ds.insert p.logicalOffset p.blobOffset p.length (s.decoded p).blob blobs) := by
  have hin : p ∈ s.range := by simp [hrange]
  obtain ⟨hword, -⟩ := s.word p (mem_range.1 hin).1
  refine ⟨?_, ?_, ?_, rfl, ?_, fun b hb => ids_next h hrange hfit hb, hsize.trans h.size,
    ?_, hblobs⟩
  · simp [EncodeState.next, h.encoded]
  · simp [DecodeState.insert, h.decodedN]
  · simp only [DecodeState.insert, EncodeState.next, Extent.logicalEnd]
    omega
  · intro q rest' hrange'
    have hsorted := s.range_sorted
    rw [hrange', append_assoc] at hsorted
    have hpq := (pairwise_append.1 hsorted).2.1
    simp only [EncodeState.next, Extent.logicalEnd_eq hword]
    exact (pairwise_cons.1 hpq).1 q (by simp)
  · simp only [DecodeState.insert, h.extents, map_append, map_cons, map_nil]
    have hlogical : p.logicalOffset % 2 ^ 32 = p.logicalOffset := by omega
    have hlength : p.length % 2 ^ 32 = p.length := by omega
    rw [hlogical, hlength]
    rfl

end

/-- The blobs after a reference to the blob of the next extent has been counted. -/
theorem blobs_next (hrange : s.range = done ++ p :: rest) {used : UseTracker}
    (hblob : Counted s.minAllocSize (done ++ [p]) p.blob (s.decodedBlob p.blob used))
    (hfirst : s.firstUse p.blob < ds.blobs.length) :
    ∀ q ∈ done ++ [p], s.Local q.blob → ∃ used',
      (ds.blobs.set (s.firstUse p.blob) (some (s.decodedBlob p.blob used)))[s.firstUse q.blob]?
        = some (some (s.decodedBlob q.blob used')) ∧
      Counted s.minAllocSize (done ++ [p]) q.blob (s.decodedBlob q.blob used') := by
  intro q hq hlocal
  by_cases heq : q.blob = p.blob
  · rw [heq]
    exact ⟨used, getElem?_set_self hfirst, hblob⟩
  have hin : q ∈ done := by
    rcases mem_append.1 hq with hq | hq
    · exact hq
    · exact absurd (congrArg _ (mem_singleton.1 hq)) heq
  obtain ⟨used', hget, hcounted⟩ := h.blobs q hin hlocal
  have hne : s.firstUse p.blob ≠ s.firstUse q.blob := by
    rw [ne_eq, firstUse_inj (by simp [hrange])]
    exact fun h => heq h.symm
  exact ⟨used', by rwa [getElem?_set_ne hne], counted_frame hcounted (Ne.symm heq)⟩

end

/-- `get_ref` of the blob of the next extent. -/
theorem refDecoded_eq (hrange : s.range = done ++ p :: rest)
    (hlocal : s.Local p.blob) (used : UseTracker)
    (hold : Counted s.minAllocSize done p.blob (s.decodedBlob p.blob used) ∨
      used = {} ∧ p.blob ∉ done.map (·.blob)) (hfirst : s.firstUse p.blob < ds.blobs.length) :
    ∃ used', refDecoded s.minAllocSize ds.blobs (s.firstUse p.blob) (s.decodedBlob p.blob used)
        p.blobOffset p.length
        = some (ds.blobs.set (s.firstUse p.blob) (some (s.decodedBlob p.blob used'))) ∧
      Counted s.minAllocSize (done ++ [p]) p.blob (s.decodedBlob p.blob used') := by
  have hin : p ∈ s.range := by simp [hrange]
  obtain ⟨hmem, hge, hlt⟩ := mem_range.1 hin
  obtain ⟨hinside, -⟩ := s.inside p hmem hge hlt hlocal
  have hpositive := s.positive p hmem
  have hsub : (done ++ [p]).Sublist s.range := by
    rw [hrange]
    simp
  obtain ⟨used', hget, hcounted⟩ := Blob.getRef_counted (s.decodedBlob p.blob used)
    (s.blob_wf p hmem) (by simp only [decodedBlob]; omega) s.order_lt rfl
    hinside ((refTotal_le _ _).trans_lt (s.sum_length_lt hsub))
    (hold.imp_right fun ⟨hnew, hnone⟩ => ⟨hnew, fun e he heq => hnone (mem_map.2 ⟨e, he, heq⟩)⟩)
  refine ⟨used', ?_, hcounted⟩
  rw [refDecoded, assert_bind hfirst, minAllocSize, hget]
  rfl

section

variable (h : s.InStep done es ds) (hrange : s.range = done ++ p :: rest)

include h hrange

/-- The first part of the body of the decoder's loop. -/
theorem reads_next (id : ℕ) (hid : id < 2 ^ 32) :
    Reads (decodeHeader ds) (encodeHeader es p id (encodedFlags s.heap es p))
      (blobId id (encodedFlags s.heap es p), p.logicalOffset, p.blobOffset, p.length) := by
  have hin : p ∈ s.range := by simp [hrange]
  obtain ⟨hword, hoffset⟩ := s.word p (mem_range.1 hin).1
  exact reads_header h.pos h.prevLen (h.before p rest hrange) (by omega) hoffset (by omega) hid

/-- What is written for the extent is read back, and the states stay in step. -/
def Follows (s : Shard β) (done : List (Extent β)) (es : EncodeState β) (ds : DecodeState β)
    (p : Extent β) : Prop :=
  ∃ ds', Reads (decodeExtent s.minAllocSize s.spanningBlobMap ds) (encodeExtent s.heap es p) ds' ∧
    s.InStep (done ++ [p]) (es.next s.heap p) ds'

/-- The blob of a spanning extent is looked up. -/
theorem step_spanning (hspan : (s.heap p.blob).isSpanning = true) : s.Follows done es ds p := by
  have hmem := (mem_range.1 (show p ∈ s.range by simp [hrange])).1
  obtain ⟨hlt, hmap⟩ := s.spanning p hmem hspan
  have hbytes : encodeExtent s.heap es p
      = encodeHeader es p (s.heap p.blob).id.toNat (encodedFlags s.heap es p) ++ [] := by
    simp [encodeExtent, encodedId, hspan]
  have hbit :=
    (blobId_testBit (s.heap p.blob).id.toNat (encodedFlags s.heap es p)).2.2.2.trans hspan
  refine ⟨_, ?_, h.next hrange (fun hlocal => Bool.noConfusion (hlocal.symm.trans hspan)) rfl
    fun q hq hlocal => ?_⟩
  · rw [hbytes]
    refine (reads_next h hrange _ (by omega)).bind ?_
    simp only [decodeRef, blobId_div, hbit]
    rw [if_true, decoded_of_spanning hspan]
    exact (reads_lift hmap).map fun b =>
      ds.insert p.logicalOffset p.blobOffset p.length (.spanning b) ds.blobs
  · have hne : q.blob ≠ p.blob := fun heq =>
      Bool.noConfusion
        (hlocal.symm.trans ((congrArg (fun b => (s.heap b).isSpanning) heq).trans hspan))
    have hin : q ∈ done := by
      rcases mem_append.1 hq with hq | hq
      · exact hq
      · exact absurd (congrArg _ (mem_singleton.1 hq)) hne
    obtain ⟨used, hget, hcounted⟩ := h.blobs q hin hlocal
    exact ⟨used, hget, counted_frame hcounted hne.symm⟩

/-- The blob of an extent that is its first use is written with it. -/
theorem step_first (hlocal : s.Local p.blob) (hnew : p.blob ∉ done.map (·.blob)) :
    s.Follows done es ds p := by
  have hmem := (mem_range.1 (show p ∈ s.range by simp [hrange])).1
  have hlength := s.length_mod hmem
  have hid := encodedId_eq h hlocal fun hin => absurd hin hnew
  rw [if_neg hnew] at hid
  have hbytes : encodeExtent s.heap es p
      = encodeHeader es p 0 (encodedFlags s.heap es p) ++ ((s.heap p.blob).encode ++ []) := by
    simp [encodeExtent, hid]
  have hbit := (blobId_testBit 0 (encodedFlags s.heap es p)).2.2.2.trans hlocal
  have hfirst : s.firstUse p.blob < ds.blobs.length := by
    rw [firstUse_eq hrange hnew, h.size, hrange]
    simp
  obtain ⟨used, hblobs, hcounted⟩ := refDecoded_eq hrange hlocal {} (.inr ⟨rfl, hnew⟩) hfirst
  refine ⟨_, ?_, h.next hrange (fun _ hin => absurd hin hnew) (length_set ..)
    (blobs_next h hrange hcounted hfirst)⟩
  rw [hbytes]
  refine (reads_next h hrange _ (by decide)).bind ?_
  simp only [decodeRef, blobId_div, hbit, hlength]
  obtain ⟨hsbid, hshared⟩ := s.sbid p hmem
  refine (reads_blobObject (s.blob_wf p hmem) hsbid hshared).bind ?_
  rw [decoded_of_local hlocal, h.decodedN, ← firstUse_eq hrange hnew]
  exact (reads_lift hblobs).map fun blobs =>
    ds.insert p.logicalOffset p.blobOffset p.length (.new (s.firstUse p.blob)) blobs

/-- The blob of an extent that uses one again is found by its number. -/
theorem step_again (hlocal : s.Local p.blob) (hold : p.blob ∈ done.map (·.blob))
    (hfit : s.firstUse p.blob + 1 < 2 ^ 15) : s.Follows done es ds p := by
  have hmem := (mem_range.1 (show p ∈ s.range by simp [hrange])).1
  have hlength := s.length_mod hmem
  have hid := encodedId_eq h hlocal fun _ => hfit
  rw [if_pos hold] at hid
  have hbytes : encodeExtent s.heap es p
      = encodeHeader es p (s.firstUse p.blob + 1) (encodedFlags s.heap es p) ++ ([] ++ []) := by
    simp [encodeExtent, hid]
  have hbit :=
    (blobId_testBit (s.firstUse p.blob + 1) (encodedFlags s.heap es p)).2.2.2.trans hlocal
  obtain ⟨q, hq, hqp⟩ := mem_map.1 hold
  obtain ⟨used, hget, hcounted⟩ := h.blobs q hq (by rw [hqp]; exact hlocal)
  rw [hqp] at hget hcounted
  have hfirst : s.firstUse p.blob < ds.blobs.length := (List.getElem?_eq_some_iff.1 hget).1
  obtain ⟨used', hblobs, hcounted'⟩ := refDecoded_eq hrange hlocal used (.inl hcounted) hfirst
  refine ⟨_, ?_, h.next hrange (fun _ _ => hfit) (length_set ..)
    (blobs_next h hrange hcounted' hfirst)⟩
  rw [hbytes]
  refine (reads_next h hrange _ (by omega)).bind ?_
  simp only [decodeRef, blobId_div, hbit, hlength, Nat.add_sub_cancel]
  refine (reads_lift (by rw [hget]; rfl)).bind ?_
  rw [decoded_of_local hlocal]
  exact (reads_lift hblobs).map fun blobs =>
    ds.insert p.logicalOffset p.blobOffset p.length (.new (s.firstUse p.blob)) blobs

/-- **One extent.**  What is written for an extent is read back, and encoder and decoder stay
in step, unless a blob is used again whose first use is not a positive `int16_t`. -/
theorem step_reads
    (hfit : s.Local p.blob → p.blob ∈ done.map (·.blob) → s.firstUse p.blob + 1 < 2 ^ 15) :
    s.Follows done es ds p := by
  cases hspan : (s.heap p.blob).isSpanning with
  | true => exact step_spanning h hrange hspan
  | false =>
    by_cases hold : p.blob ∈ done.map (·.blob)
    · exact step_again h hrange hspan hold (hfit hspan hold)
    · exact step_first h hrange hspan hold

end

end Step

/-! ## Whole shards -/

theorem length_le_encodeLoop (heap : β → Blob) (l : List (Extent β)) :
    ∀ es : EncodeState β, l.length ≤ (encodeLoop heap es l).length := by
  induction l with
  | nil => simp
  | cons p l ih =>
    intro es
    have hpos := length_pos_iff.2 (encodeExtent_ne_nil heap es p)
    have hrest := ih (es.next heap p)
    rw [encodeLoop, length_append, length_cons]
    omega

section

variable (s : Shard β)

/-- Every extent that uses a blob again names it by a number that is a positive `int16_t`. -/
def FirstUsesFit : Prop := ∀ done p rest, s.range = done ++ p :: rest →
  s.Local p.blob → p.blob ∈ done.map (·.blob) → s.firstUse p.blob + 1 < 2 ^ 15

/-- The length of a blob of several units can be rounded up to units in a word. -/
def UnitsFit : Prop := ∀ p ∈ s.range, s.Local p.blob →
  (s.heap p.blob).blob.logicalLength ≤ (s.heap p.blob).blob.releaseSize s.minAllocSize ∨
    (s.heap p.blob).blob.logicalLength + (s.heap p.blob).blob.releaseSize s.minAllocSize ≤ 2 ^ 32

/-- The decoder follows the encoder along extents for which the numbers fit. -/
theorem decodeLoop_follows (todo mid : List (Extent β)) :
    ∀ (done : List (Extent β)) (es : EncodeState β) (ds : DecodeState β),
      s.range = done ++ (mid ++ todo) → s.InStep done es ds →
      (∀ pre p rest, mid = pre ++ p :: rest → s.Local p.blob → p.blob ∈ (done ++ pre).map (·.blob) →
        s.firstUse p.blob + 1 < 2 ^ 15) → ∃ es' ds', s.InStep (done ++ mid) es' ds' ∧ ∀ fuel,
        decodeLoop s.minAllocSize s.spanningBlobMap (mid.length + fuel) ds
            (encodeLoop s.heap es (mid ++ todo))
          = decodeLoop s.minAllocSize s.spanningBlobMap fuel ds' (encodeLoop s.heap es' todo) := by
  induction mid with
  | nil =>
    intro done es ds _ h _
    exact ⟨es, ds, by rwa [append_nil], fun fuel => by simp⟩
  | cons p mid ih =>
    intro done es ds hrange h hfit
    obtain ⟨ds₁, hread, h₁⟩ := step_reads h hrange fun hlocal hold =>
      hfit [] p mid rfl hlocal (by rwa [append_nil])
    obtain ⟨es', ds', h', hrun⟩ := ih (done ++ [p]) _ ds₁ (by rw [hrange]; simp) h₁
      fun pre q rest hmid hlocal hold =>
        hfit (p :: pre) q rest (by rw [hmid]; rfl) hlocal (by simpa using hold)
    refine ⟨es', ds', by simpa using h', fun fuel => ?_⟩
    have hne : encodeExtent s.heap es p ++
        encodeLoop s.heap (es.next s.heap p) (mid ++ todo) ≠ [] :=
      append_ne_nil_of_left_ne_nil (encodeExtent_ne_nil _ _ _) _
    rw [cons_append, encodeLoop, length_cons, Nat.add_right_comm, decodeLoop, if_neg hne, hread]
    exact hrun fuel

/-- The states before the first extent. -/
theorem inStep_nil : s.InStep []
    { n := 0, pos := 0, prevLen := 0, lastEncodedId := fun _ => -1 }
    { n := 0, pos := 0, prevLen := 0, blobs := replicate s.range.length none, extents := [] } where
  encoded := rfl
  decodedN := rfl
  pos := rfl
  prevLen := rfl
  before _ _ _ := Nat.zero_le _
  ids _ _ := by simp
  size := length_replicate
  extents := rfl
  blobs p hp := absurd hp not_mem_nil

/-- `encode_some` writes the range, and `decode_some` runs its loop on it. -/
theorem decodeSome_encodeSome : ∃ bl,
    encodeSome s.heap s.extents s.offset s.length = some bl ∧ ∃ fuel, s.range.length < fuel ∧
      decodeSome s.minAllocSize s.spanningBlobMap bl =
        (decodeLoop s.minAllocSize s.spanningBlobMap fuel
          { n := 0, pos := 0, prevLen := 0, blobs := replicate s.range.length none, extents := [] }
          (encodeLoop s.heap { n := 0, pos := 0, prevLen := 0, lastEncodedId := fun _ => -1 }
            s.range)).bind fun st => (assert (st.n = s.range.length)).map fun _ => st := by
  have hinside : ¬ s.range.any (fun p =>
      !(s.heap p.blob).isSpanning && p.blobEscapesRange s.heap s.offset s.length) = true := by
    rw [List.any_eq_true]
    rintro ⟨p, hp, hescapes⟩
    obtain ⟨hmem, hge, hlt⟩ := mem_range.1 hp
    obtain ⟨hlocal, hescapes⟩ := Bool.and_eq_true_iff.1 hescapes
    obtain ⟨-, hstart, hend⟩ := s.inside p hmem hge hlt (by simpa using hlocal)
    have hword := s.range_word
    simp only [Extent.blobEscapesRange, Extent.blobEnd, Extent.blobStart] at hescapes
    rcases Bool.or_eq_true_iff.1 hescapes with hout | hout
    · have := of_decide_eq_true hout
      omega
    · have := of_decide_eq_true hout
      omega
  have hcount : s.range.length < 2 ^ 32 := by
    have hlen : s.range.length ≤ (s.range.map (·.length)).sum := by
      rw [← length_map (·.length)]
      refine length_le_sum_of_one_le _ fun n hn => ?_
      obtain ⟨e, he, rfl⟩ := mem_map.1 hn
      exact s.positive e (mem_range.1 he).1
    exact hlen.trans_lt (s.sum_length_lt (Sublist.refl _))
  generalize hloop : encodeLoop s.heap
    { n := 0, pos := 0, prevLen := 0, lastEncodedId := fun _ => -1 } s.range = loop
  refine ⟨leBytes 1 2 ++ (varint s.range.length ++ loop), ?_, loop.length + 1, ?_, ?_⟩
  · simp only [encodeSome, extentRange_eq, hloop]
    rw [if_neg hinside]
  · have := length_le_encodeLoop s.heap s.range
      { n := 0, pos := 0, prevLen := 0, lastEncodedId := fun _ => -1 }
    rw [hloop] at this
    omega
  · rw [decodeSome, reads_leNat 1 (by decide), bind_eq_bind, bind_some]
    simp only []
    rw [assert_bind (by decide), reads_varint hcount]
    simp only [bind_eq_bind, bind_some]
    congr 1
    funext st
    cases assert (st.n = s.range.length) <;> rfl

/-- `decode_some` reaches the end of a first part of the range for which the numbers fit. -/
theorem decodeSome_follows {mid todo : List (Extent β)} (hrange : s.range = mid ++ todo)
    (hfit : ∀ pre p rest, mid = pre ++ p :: rest → s.Local p.blob → p.blob ∈ pre.map (·.blob) →
      s.firstUse p.blob + 1 < 2 ^ 15) : ∃ bl es ds k,
    encodeSome s.heap s.extents s.offset s.length = some bl ∧ s.InStep mid es ds ∧
    decodeSome s.minAllocSize s.spanningBlobMap bl =
      (decodeLoop s.minAllocSize s.spanningBlobMap (k + 1) ds (encodeLoop s.heap es todo)).bind
        fun st => (assert (st.n = s.range.length)).map fun _ => st := by
  obtain ⟨es, ds, hstep, hrun⟩ := s.decodeLoop_follows todo mid [] _ _ hrange s.inStep_nil hfit
  obtain ⟨bl, henc, fuel, hfuel, hdec⟩ := s.decodeSome_encodeSome
  obtain ⟨k, rfl⟩ : ∃ k, fuel = mid.length + (k + 1) := by
    have hlen := congrArg List.length hrange
    rw [length_append] at hlen
    exact ⟨fuel - mid.length - 1, by omega⟩
  rw [← hrange] at hrun
  exact ⟨bl, es, ds, k, henc, hstep, by rw [hdec, hrun]⟩

/-- What `decode_some` has made of a range: the same extents, which share their blobs as before;
spanning blobs are the same ones, and the others equal the original and track the references of
all extents. -/
structure Restored (s : Shard β) (r : DecodeState β) : Prop where
  extents : r.extents.map (fun e => (e.logicalOffset, e.blobOffset, e.length))
    = s.range.map fun e => (e.logicalOffset, e.blobOffset, e.length)
  shared : ∀ x ∈ s.range.zip r.extents, ∀ y ∈ s.range.zip r.extents,
    x.2.blob = y.2.blob ↔ x.1.blob = y.1.blob
  spanning : ∀ x ∈ s.range.zip r.extents, (s.heap x.1.blob).isSpanning = true →
    x.2.blob = .spanning x.1.blob
  blobs : ∀ x ∈ s.range.zip r.extents, s.Local x.1.blob → ∃ n blob, x.2.blob = .new n ∧
    r.blobs[n]? = some (some blob) ∧ blob.blob = (s.heap x.1.blob).blob ∧
    blob.sbid = (s.heap x.1.blob).sbid ∧ Tracked s.minAllocSize s.extents x.1.blob blob

theorem sum_filter {α : Type} {f : α → ℕ} {q : α → Bool} {l : List α}
    (h : ∀ x ∈ l, q x = false → f x = 0) : ((l.filter q).map f).sum = (l.map f).sum := by
  induction l with
  | nil => rfl
  | cons x l ih =>
    have hrest := ih fun y hy => h y (mem_cons_of_mem _ hy)
    cases hq : q x with
    | true => simp [filter_cons_of_pos hq, hrest]
    | false => simp [hq, hrest, h x mem_cons_self hq]

/-- Only extents of the range refer to its blobs. -/
theorem counted_extents {p : Extent β} (hp : p ∈ s.range) (hlocal : s.Local p.blob) {blob : Blob}
    (h : Counted s.minAllocSize s.range p.blob blob) :
    Counted s.minAllocSize s.extents p.blob blob := by
  obtain ⟨hmem, hge, hlt⟩ := mem_range.1 hp
  have hout : ∀ e ∈ s.extents,
      decide (s.offset ≤ e.logicalOffset ∧ e.logicalOffset < s.offset + s.length) = false →
        ¬ e.blob = p.blob := by
    intro e he hnot heq
    exact of_decide_eq_false hnot (s.only p hmem hge hlt hlocal e he heq)
  have htotal : refTotal s.range p.blob = refTotal s.extents p.blob :=
    sum_filter fun e he hnot => if_neg (hout e he hnot)
  have hcount : ∀ au, refCount au s.range p.blob = refCount au s.extents p.blob := fun au =>
    funext fun u => sum_filter fun e he hnot => if_neg (hout e he hnot)
  rwa [Counted, htotal, hcount] at h

/-- When the tracker of a blob has a counter for each unit. -/
theorem tracked_iff {p : Extent β} (hp : p ∈ s.range) (hlocal : s.Local p.blob) {used : UseTracker}
    (h : Counted s.minAllocSize s.range p.blob (s.decodedBlob p.blob used)) :
    Tracked s.minAllocSize s.extents p.blob (s.decodedBlob p.blob used) ↔
      (s.heap p.blob).blob.logicalLength ≤ (s.heap p.blob).blob.releaseSize s.minAllocSize ∨
        (s.heap p.blob).blob.logicalLength + (s.heap p.blob).blob.releaseSize s.minAllocSize
          ≤ 2 ^ 32 := by
  obtain ⟨hmem, hge, hlt⟩ := mem_range.1 hp
  have hblob := s.blob_wf p hmem
  have hpos := s.positive p hmem
  have hinside := (s.inside p hmem hge hlt hlocal).1
  obtain ⟨hau, hunit⟩ := releaseSize_spec hblob (by omega) s.order_lt
  refine Iff.trans ?_ (UseTracker.le_unit_iff hau hunit hblob.logicalLength)
  exact ⟨fun ht hone => ht.oneUnit (h.alone.2 hone),
    fun hone => ⟨s.counted_extents hp hlocal h, fun hzero => hone (h.alone.1 hzero)⟩⟩

end

section

variable {s : Shard β} {es : EncodeState β} {ds : DecodeState β}

theorem InStep.zip_eq (h : s.InStep s.range es ds) : s.range.zip ds.extents =
    s.range.map fun p => (p, s.decoded p) := by
  have hmap := zip_map' (f := id) (g := s.decoded) (l := s.range)
  rwa [List.map_id, ← h.extents] at hmap

/-- States that are in step at the end of the range have restored it. -/
theorem InStep.restored (h : s.InStep s.range es ds) (hunits : s.UnitsFit) : s.Restored ds := by
  have hzip : ∀ x ∈ s.range.zip ds.extents, x.1 ∈ s.range ∧ x.2 = s.decoded x.1 := by
    intro x hx
    rw [h.zip_eq] at hx
    obtain ⟨p, hp, rfl⟩ := mem_map.1 hx
    exact ⟨hp, rfl⟩
  refine ⟨?_, fun x hx y hy => ?_, fun x hx hp => ?_, fun x hx hp => ?_⟩
  · rw [h.extents, List.map_map]
    rfl
  · obtain ⟨hx1, hx2⟩ := hzip x hx
    obtain ⟨-, hy2⟩ := hzip y hy
    rw [hx2, hy2]
    cases hxs : (s.heap x.1.blob).isSpanning <;> cases hys : (s.heap y.1.blob).isSpanning
    · rw [decoded_of_local hxs, decoded_of_local hys, DecodedRef.new.injEq,
        firstUse_inj (mem_map_of_mem hx1)]
    · rw [decoded_of_local hxs, decoded_of_spanning hys]
      refine ⟨nofun, fun heq => ?_⟩
      rw [heq, hys] at hxs
      exact Bool.noConfusion hxs
    · rw [decoded_of_spanning hxs, decoded_of_local hys]
      refine ⟨nofun, fun heq => ?_⟩
      rw [heq, hys] at hxs
      exact Bool.noConfusion hxs
    · rw [decoded_of_spanning hxs, decoded_of_spanning hys, DecodedRef.spanning.injEq]
  · rw [(hzip x hx).2, decoded_of_spanning hp]
  · obtain ⟨hx1, hx2⟩ := hzip x hx
    obtain ⟨used, hget, hcounted⟩ := h.blobs x.1 hx1 hp
    exact ⟨_, _, by rw [hx2, decoded_of_local hp], hget, rfl, rfl,
      (s.tracked_iff hx1 hp hcounted).2 (hunits x.1 hx1 hp)⟩

/-- If they have, the units of the blobs fit. -/
theorem InStep.unitsFit (h : s.InStep s.range es ds) (hr : s.Restored ds) : s.UnitsFit := by
  intro p hp hlocal
  have hmem : (p, s.decoded p) ∈ s.range.zip ds.extents := h.zip_eq ▸ mem_map_of_mem hp
  obtain ⟨n, blob, hn, hget, -, -, htracked⟩ := hr.blobs _ hmem hlocal
  obtain ⟨used, hget', hcounted⟩ := h.blobs p hp hlocal
  obtain rfl : s.firstUse p.blob = n := DecodedRef.new.inj ((decoded_of_local hlocal).symm.trans hn)
  obtain rfl : s.decodedBlob p.blob used = blob :=
    some.inj (some.inj (hget'.symm.trans hget))
  exact (s.tracked_iff hp hlocal hcounted).1 htracked

end

/-! ## Numbers that do not fit -/

variable {spanningBlobMap : ℕ → Option β}

omit [DecidableEq β] in
/-- One extent is inserted, with the blob that its number names. -/
theorem decodeRef_extents {m : ℕ} {ds ds' : DecodeState β}
    {blobid pos blobOffset prevLen : ℕ} {bytes rest : List UInt8}
    (h : (decodeRef m spanningBlobMap ds blobid pos blobOffset prevLen).run bytes =
    some (ds', rest)) : ∃ e, ds'.extents = ds.extents ++ [e] ∧ (blobid.testBit 3 = false →
      e.blob = .new (if blobid / 16 = 0 then ds.n else blobid / 16 - 1)) := by
  simp only [decodeRef] at h
  split_ifs at h with hspan hid
  · obtain ⟨b, _, -, h⟩ := run_bind_eq_some h
    rw [run_pure_eq_some h]
    exact ⟨_, rfl, fun hlocal => Bool.noConfusion (hlocal.symm.trans hspan)⟩
  · obtain ⟨b, _, -, h⟩ := run_bind_eq_some h
    obtain ⟨blobs, _, -, h⟩ := run_bind_eq_some h
    rw [run_pure_eq_some h]
    exact ⟨_, rfl, fun _ => by rw [if_neg hid]⟩
  · obtain ⟨b, _, -, h⟩ := run_bind_eq_some h
    obtain ⟨blobs, _, -, h⟩ := run_bind_eq_some h
    rw [run_pure_eq_some h]
    exact ⟨_, rfl, fun _ => by rw [if_pos (not_not.1 hid)]⟩

omit [DecidableEq β] in
/-- The loop only adds extents. -/
theorem decodeLoop_extents {m : ℕ} (fuel : ℕ) : ∀ {ds r : DecodeState β} {bytes : List UInt8},
      decodeLoop m spanningBlobMap fuel ds bytes = some r →
      ∃ more, r.extents = ds.extents ++ more := by
  induction fuel with
  | zero =>
    intro ds r bytes h
    exact absurd h (by simp [decodeLoop])
  | succ fuel ih =>
    intro ds r bytes h
    rw [decodeLoop] at h
    split_ifs at h with hend
    · exact ⟨[], by rw [← some.inj h, append_nil]⟩
    · obtain ⟨⟨ds', rest⟩, hrun, h⟩ := of_bind h
      obtain ⟨⟨blobid, pos, blobOffset, prevLen⟩, mid, -, hrun⟩ := run_bind_eq_some hrun
      obtain ⟨e, he, -⟩ := decodeRef_extents hrun
      obtain ⟨more, hmore⟩ := ih h
      exact ⟨e :: more, by rw [hmore, he, append_assoc]; rfl⟩

section

variable {s : Shard β} {done rest : List (Extent β)} {p : Extent β} {es : EncodeState β}
  {ds : DecodeState β}

/-- The number that is written for a blob whose first use does not fit is another one. -/
theorem encodedId_of_overflow (h : s.InStep done es ds) (hlocal : s.Local p.blob)
    (hold : p.blob ∈ done.map (·.blob)) (hover : 2 ^ 15 ≤ s.firstUse p.blob + 1) :
    (encodedId s.heap es p.blob).1 < s.firstUse p.blob + 1 ∧
      (encodedId s.heap es p.blob).1 < 2 ^ 15 := by
  rw [encodedId, if_neg (ne_true_of_eq_false hlocal), h.ids _ hlocal, if_pos hold]
  have hlt : int16 (s.firstUse p.blob + 1) < 2 ^ 15 := Int.bmod_lt (by decide)
  split_ifs
  · simp
  · omega

/-- An extent that uses such a blob again gets another one. -/
theorem ref_of_overflow (h : s.InStep done es ds) (hrange : s.range = done ++ p :: rest)
    (hlocal : s.Local p.blob) (hold : p.blob ∈ done.map (·.blob))
    (hover : 2 ^ 15 ≤ s.firstUse p.blob + 1) {fuel : ℕ} {r : DecodeState β}
    (hrun : decodeLoop s.minAllocSize s.spanningBlobMap (fuel + 1) ds
      (encodeLoop s.heap es (p :: rest)) = some r) :
    ∃ e more, r.extents = done.map s.decoded ++ e :: more ∧ e.blob ≠ .new (s.firstUse p.blob) := by
  have hne : encodeExtent s.heap es p ++ encodeLoop s.heap (es.next s.heap p) rest ≠ [] :=
    append_ne_nil_of_left_ne_nil (encodeExtent_ne_nil _ _ _) _
  rw [encodeLoop, decodeLoop, if_neg hne] at hrun
  obtain ⟨⟨ds', rest'⟩, hstep, hrun⟩ := of_bind hrun
  obtain ⟨x, mid, hhead, href⟩ := run_bind_eq_some hstep
  obtain ⟨-, hidlt⟩ := encodedId_of_overflow h hlocal hold hover
  have hread := reads_next h hrange (encodedId s.heap es p.blob).1 (by omega)
  rw [encodeExtent, append_assoc, hread] at hhead
  cases hhead
  obtain ⟨e, he, hblob⟩ := decodeRef_extents href
  obtain ⟨more, hmore⟩ := decodeLoop_extents fuel hrun
  refine ⟨e, more, by rw [hmore, he, h.extents]; simp, ?_⟩
  have hlocalBit := (blobId_testBit (encodedId s.heap es p.blob).1 (encodedFlags s.heap es p)).2.2.2
  have hfirst := firstUse_lt hrange hold
  rw [hblob (hlocalBit.trans hlocal), blobId_div, ne_eq, DecodedRef.new.injEq, h.decodedN]
  split_ifs <;> omega

end

/-- A shard that is restored uses again only blobs whose numbers fit: the first extent for which
they do not would not share its blob any more. -/
theorem firstUsesFit_of_restored (s : Shard β) {bl : List UInt8} {r : DecodeState β}
    (henc : encodeSome s.heap s.extents s.offset s.length = some bl)
    (hdec : decodeSome s.minAllocSize s.spanningBlobMap bl = some r) (hr : s.Restored r) :
    s.FirstUsesFit := by
  intro done
  induction hn : done.length using Nat.strong_induction_on generalizing done with
  | _ n ih =>
    intro p rest hrange hlocal hold
    by_contra hover
    obtain ⟨bl', es, ds, k, henc', hstep, hrun⟩ := s.decodeSome_follows hrange
      fun pre q mid hmid => ih pre.length (by rw [← hn, hmid]; simp) pre rfl q
        (mid ++ p :: rest) (by rw [hrange, hmid]; simp)
    rw [← some.inj (henc.symm.trans henc'), hdec] at hrun
    obtain ⟨st, hloop, hst⟩ := of_bind hrun.symm
    obtain ⟨-, -, rfl⟩ := of_map hst
    obtain ⟨e, more, hextents, hne⟩ := ref_of_overflow hstep hrange hlocal hold (by omega) hloop
    -- the earlier extent with this blob keeps it
    obtain ⟨q, hq, hqp⟩ := mem_map.1 hold
    have hzip : s.range.zip st.extents
        = done.map (fun p => (p, s.decoded p)) ++ (p, e) :: rest.zip more := by
      rw [hrange, hextents, zip_append (by simp), zip_cons_cons]
      simpa using zip_map' (f := id)
    have hshared := (hr.shared (q, s.decoded q) (by rw [hzip]; simp [hq]) (p, e)
      (by rw [hzip]; simp)).2 hqp
    rw [← hqp] at hlocal hne
    exact hne (hshared.symm.trans (decoded_of_local hlocal))

/-- **The extent map survives its encoding** exactly if the first uses of the blobs that are used
again are numbers that fit in an `int16_t`, and the lengths of the blobs can be rounded up to units
in 32 bits. -/
theorem restored_iff (s : Shard β) :
    (∃ bl, encodeSome s.heap s.extents s.offset s.length = some bl ∧
      ∃ r, decodeSome s.minAllocSize s.spanningBlobMap bl = some r ∧ s.Restored r) ↔
      s.FirstUsesFit ∧ s.UnitsFit := by
  have hends : s.FirstUsesFit → ∃ bl es ds, s.InStep s.range es ds ∧
      encodeSome s.heap s.extents s.offset s.length = some bl ∧
      decodeSome s.minAllocSize s.spanningBlobMap bl = some ds := by
    intro hfit
    obtain ⟨bl, es, ds, k, henc, hstep, hrun⟩ := s.decodeSome_follows (append_nil _).symm hfit
    refine ⟨bl, es, ds, hstep, henc, ?_⟩
    rw [hrun, encodeLoop, decodeLoop, if_pos rfl, bind_some, assert, if_pos hstep.decodedN]
    rfl
  constructor
  · rintro ⟨bl, henc, r, hdec, hr⟩
    have hfit := s.firstUsesFit_of_restored henc hdec hr
    obtain ⟨bl', es, ds, hstep, henc', hdec'⟩ := hends hfit
    rw [← some.inj (henc.symm.trans henc'), hdec] at hdec'
    exact ⟨hfit, hstep.unitsFit (some.inj hdec' ▸ hr)⟩
  · rintro ⟨hfit, hunits⟩
    obtain ⟨bl, es, ds, hstep, henc, hdec⟩ := hends hfit
    exact ⟨bl, henc, ds, hdec, hstep.restored hunits⟩

end Shard

/-! ## A blob that is shared too late -/

/-- Blocks of one byte: the first 32767 are in one blob, the others in another one. -/
def lateBlocks (n : ℕ) : List (Extent Bool) :=
  (range n).map fun i => ⟨i, if i < 32767 then i else i - 32767, 1, decide (32767 ≤ i)⟩

theorem mem_lateBlocks {e : Extent Bool} : e ∈ lateBlocks n ↔
    ∃ i < n, ⟨i, if i < 32767 then i else i - 32767, 1, decide (32767 ≤ i)⟩ = e := by
  simp [lateBlocks]

/-- A blob of 64 KiB without checksums. -/
def plainBlob : Blob where
  blob := { extents := [⟨0, 65536⟩], logicalLength := 65536 }

theorem plainBlob_wf : plainBlob.blob.WF := by
  constructor <;> decide

/-- Blocks that end inside the second blob are a shard. -/
def lateShard (n : ℕ) (hn : n ≤ 65536) : Shard Bool where
  heap _ := plainBlob
  spanningBlobMap _ := none
  minAllocOrder := 12
  extents := lateBlocks n
  offset := 0
  length := 2 ^ 17
  order_lt := by decide
  sorted := by
    rw [lateBlocks, pairwise_map]
    exact pairwise_lt_range.imp fun h => h
  positive e he := by
    obtain ⟨i, -, rfl⟩ := mem_lateBlocks.1 he
    exact Nat.one_pos
  word e he := by
    obtain ⟨i, hi, rfl⟩ := mem_lateBlocks.1 he
    dsimp only
    split_ifs <;> omega
  range_word := by decide
  blob_wf _ _ := plainBlob_wf
  sbid _ _ := by decide
  spanning _ _ h := absurd h (by decide)
  inside e he _ _ _ := by
    obtain ⟨i, hi, rfl⟩ := mem_lateBlocks.1 he
    have hlen : plainBlob.blob.logicalLength = 65536 := rfl
    dsimp only
    rw [hlen]
    split_ifs <;> omega
  only _ _ _ _ _ e he _ := by
    obtain ⟨i, hi, rfl⟩ := mem_lateBlocks.1 he
    dsimp only
    omega

theorem lateShard_range (hn : n ≤ 65536) : (lateShard n hn).range = lateBlocks n := by
  refine filter_eq_self.2 fun e he => ?_
  obtain ⟨i, hi, rfl⟩ := mem_lateBlocks.1 he
  refine decide_eq_true ?_
  simp only [lateShard]
  omega

/-- The first block of the second blob has the number 32767. -/
theorem lateShard_firstUse (hn : n ≤ 65536) (hlate : 32767 < n) :
    32767 ≤ (lateShard n hn).firstUse true := by
  have hmem : true ∈ (lateBlocks n).map (·.blob) :=
    mem_map.2 ⟨_, mem_lateBlocks.2 ⟨32767, hlate, rfl⟩, rfl⟩
  rw [Shard.firstUse, lateShard_range]
  have hget := getElem_idxOf (idxOf_lt_length_of_mem hmem)
  simp only [lateBlocks, getElem_map, getElem_range, decide_eq_true_eq] at hget
  exact hget

/-- Two blocks of a blob whose first use is the block number 32767 do not share it after they
were encoded and decoded. -/
theorem lateShard_not_restored : ¬ ∃ bl,
    encodeSome (lateShard 32769 (by decide)).heap (lateShard 32769 (by decide)).extents 0 (2 ^ 17)
      = some bl ∧ ∃ r, decodeSome (lateShard 32769 (by decide)).minAllocSize
        (lateShard 32769 (by decide)).spanningBlobMap bl = some r ∧
      (lateShard 32769 (by decide)).Restored r := by
  rintro ⟨bl, henc, r, hdec, hr⟩
  have hrange : (lateShard 32769 (by decide)).range = lateBlocks 32768 ++
      [⟨32768, 1, 1, true⟩] := by
    rw [lateShard_range, lateBlocks, range_succ, map_append]
    rfl
  have hlocal : (lateShard 32769 (by decide)).Local true := rfl
  have hold : true ∈ (lateBlocks 32768).map (·.blob) :=
    List.mem_map.2 ⟨_, mem_lateBlocks.2 ⟨32767, by decide, rfl⟩, rfl⟩
  have hfit := (lateShard 32769 (by decide)).firstUsesFit_of_restored henc hdec hr _ _ _ hrange
    hlocal hold
  have hlarge : ∀ k, 32767 ≤ k → ¬ k + 1 < 2 ^ 15 := by
    intro k hk
    omega
  exact hlarge _ (lateShard_firstUse (by decide) (by decide)) hfit

end Ceph.Os
